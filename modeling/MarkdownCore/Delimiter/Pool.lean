import MarkdownCore.Delimiter.Ranges

/-!
# The pool of entries

`core/inlines.c`: the inline states of one parser, of which several may be suspended at once, each
have a stack of entries, and all take their entries from the parser's pool and give them back to
it. Whatever order they go on in, no entry is lost and none is on two stacks, and the allocator has
been asked for as many entries as were once on stacks together (`pool_holds_most`).
-/

namespace MarkdownCore.Delimiter

open Links

variable {K : Type}

/-- An entry has what its run of signs is. -/
def Entry.dress (e : Entry) (owner : Option ℕ) (rule : Rule) (canOpen canClose : Bool)
    (text length : ℕ) : Entry :=
  { e with
    node := some text, owner := owner, length := length, rule := rule, canOpen := canOpen,
    canClose := canClose }

namespace State

/-! ### Pushes -/

/-- An entry, all of it cleared, becomes the last of the stack. -/
def chain (s : State K) (entry : ℕ) (kind : EntryKind) (position : ℕ) : State K :=
  let last := s.lastDelim
  let s := s.setEntry entry fun _ => { kind := kind, position := position, previous := last }
  let s := match last with
    | none => s
    | some previous => s.setEntry previous fun e => { e with next := some entry }
  { s with lastDelim := some entry }

/-- `markdown_core_inline_push_delimiter_entry`: `granted` is what the allocator answers where the
pool has no entry. -/
def pushDelimiterEntry (s : State K) (granted : Option ℕ) (kind : EntryKind) (position : ℕ) :
    State K × Option ℕ :=
  match s.freeDelimiters.or granted with
  | none => ({ s with error := true }, none)
  | some entry =>
    let s := if s.freeDelimiters = none then s
      else { s with freeDelimiters := (s.entries entry).next }
    (s.chain entry kind position, some entry)

/-- Whether the last entry of the stack is a boundary. -/
def endsInBoundary (s : State K) : Bool :=
  s.lastDelim.any fun last => (s.entries last).kind = .boundary

/-- `markdown_core_inline_push_boundary`. -/
def pushBoundary (s : State K) (granted : Option ℕ) (position : ℕ) : State K :=
  match s.lastDelim with
  | some last =>
    if (s.entries last).kind = .boundary then
      s.setEntry last fun e => { e with position := position }
    else (s.pushDelimiterEntry granted .boundary position).1
  | none => (s.pushDelimiterEntry granted .boundary position).1

/-- The entry of a run of signs counts, and has what the run is. -/
def dress (s : State K) (delim : ℕ) (owner : Option ℕ) (rule : Rule) (canOpen canClose : Bool)
    (text : ℕ) : State K :=
  let length := (((s.nodes text).bind (·.literal)).getD []).length
  { s.setEntry delim fun e => e.dress owner rule canOpen canClose text length with
    delimOpeners := if canOpen then Function.update s.delimOpeners rule (s.delimOpeners rule + 1)
      else s.delimOpeners
    delimClosers := if canClose then
        Function.update s.delimClosers rule (s.delimClosers rule + 1)
      else s.delimClosers }

/-- `push_delimiter`, at `pos`. -/
def pushDelimiter (s : State K) (granted owner : Option ℕ) (rule : Rule) (canOpen canClose : Bool)
    (inlText : Option ℕ) (pos : ℕ) : State K :=
  match inlText with
  | none => { s with error := true }
  | some text =>
    if rule = .none then s
    else
      let pushed := s.pushDelimiterEntry granted .marker pos
      match pushed.2 with
      | none => pushed.1
      | some delim => pushed.1.dress delim owner rule canOpen canClose text

/-! ### Removals -/

/-- `complete_inline_token`, once the inline states of the token's fields are done: `whitespace` is
what they answer. -/
def completeInlineToken (s : State K) (whitespace : Bool) : State K :=
  match s.lastDelim with
  | none => s
  | some entry =>
    if (s.entries entry).kind ≠ .field then s
    else if whitespace then
      let s := s.setEntry entry fun e => { e with kind := .boundary, node := none }
      match (s.entries entry).previous with
      | none => s
      | some previous =>
        if (s.entries previous).kind = .boundary then s.removeDelimiter previous else s
    else s.removeDelimiter entry

/-- The loop of `markdown_core_inline_clear_inlines`. -/
def clearDelimiters : ℕ → State K → Option (State K)
  | 0, _ => none
  | fuel + 1, s =>
    match s.lastDelim with
    | none => some s
    | some last => clearDelimiters fuel (s.removeDelimiter last)

/-- The entries on the stack: the last, and the one before each. -/
inductive On (s : State K) : ℕ → Prop
  | last {e : ℕ} (h : s.lastDelim = some e) : On s e
  | previous {e a : ℕ} (h : On s e) (ha : (s.entries e).previous = some a) : On s a

/-- What a push asks the allocator for. -/
def drawn (s : State K) (granted : Option ℕ) : List ℕ :=
  if s.freeDelimiters = none then granted.toList else []

/-- What an inline state does with its stack, and the entries that the allocator grants it. The
pairing of a range takes steps of these: it reduces, it writes nodes and it removes. -/
inductive Step (s : State K) : List ℕ → State K → Prop
  | push (granted : Option ℕ) (kind : EntryKind) (position : ℕ) :
    Step s (s.drawn granted) (s.pushDelimiterEntry granted kind position).1
  | boundary (granted : Option ℕ) (position : ℕ) (h : s.endsInBoundary = false) :
    Step s (s.drawn granted) (s.pushBoundary granted position)
  | again (granted : Option ℕ) (position : ℕ) (h : s.endsInBoundary = true) :
    Step s [] (s.pushBoundary granted position)
  | delimiter (granted owner : Option ℕ) (rule : Rule) (canOpen canClose : Bool) (text pos : ℕ)
    (h : rule ≠ .none) :
    Step s (s.drawn granted) (s.pushDelimiter granted owner rule canOpen canClose (some text) pos)
  | refused (granted owner : Option ℕ) (rule : Rule) (canOpen canClose : Bool)
    (text : Option ℕ) (pos : ℕ) (h : text = none ∨ rule = .none) :
    Step s [] (s.pushDelimiter granted owner rule canOpen canClose text pos)
  | complete (whitespace : Bool) : Step s [] (s.completeInlineToken whitespace)
  | remove (e : ℕ) (h : s.On e) : Step s [] (s.removeDelimiter e)
  | reduce {s' : State K} (fuel : ℕ) (before after : Option ℕ) (h : ∀ e ∈ after, s.On e)
    (heq : s.reduceDelimiterRange fuel before after = some s') : Step s [] s'
  | clear {s' : State K} (fuel : ℕ) (heq : s.clearDelimiters fuel = some s') : Step s [] s'
  | others (scaffolds : ℕ → Scaffold) (nodes : ℕ → Option (Node K)) (asked : Rule → Bool)
    (undecided : ℕ) (error : Bool) :
    Step s [] { s with
      scaffolds := scaffolds, nodes := nodes, asked := asked, undecided := undecided,
      error := error }

end State

/-! ### What a step moves -/

section

variable {s s' s'' : State K} {stack stack' stack'' pool pool' pool'' drawn : List ℕ} {a e : ℕ}

/-- The entries have moved between the stack and the pool, those that the allocator granted besides,
and it was asked where the pool had none. -/
structure Carried (s s' : State K) (stack pool stack' pool' drawn : List ℕ) : Prop where
  stacked : Stacked s' stack' pool'
  perm : (stack' ++ pool').Perm (drawn ++ (stack ++ pool))
  asked : drawn ≠ [] → pool' = []
  others : ∀ e, e ∉ drawn → e ∉ stack → e ∉ pool → s'.entries e = s.entries e

lemma Carried.trans (h : Carried s s' stack pool stack' pool' drawn)
    (h' : Carried s' s'' stack' pool' stack'' pool'' []) (hasked : drawn ≠ [] → pool'' = []) :
    Carried s s'' stack pool stack'' pool'' drawn where
  stacked := h'.stacked
  perm := h'.perm.trans h.perm
  asked := hasked
  others := fun e hdrawn hstack hpool => by
    have hnot : e ∉ stack' ++ pool' := by
      rw [h.perm.mem_iff, List.mem_append, List.mem_append]
      exact not_or.mpr ⟨hdrawn, not_or.mpr ⟨hstack, hpool⟩⟩
    rw [List.mem_append, not_or] at hnot
    rw [h'.others e List.not_mem_nil hnot.1 hnot.2, h.others e hdrawn hstack hpool]

/-- Where the entries that an operation may change are only those of the stack. -/
lemma Stacked.carried (h : Stacked s' stack pool)
    (hothers : ∀ e, e ∉ stack → s'.entries e = s.entries e) :
    Carried s s' stack pool stack pool [] :=
  ⟨h, List.Perm.refl _, fun hne => absurd rfl hne, fun e _ hstack _ => hothers e hstack⟩

lemma Stacked.previous_mem (h : Stacked s stack pool) (he : e ∈ stack)
    (ha : (s.entries e).previous = some a) : a ∈ stack.erase e := by
  obtain ⟨before, after, rfl⟩ := List.append_of_mem he
  rw [h.previous_split] at ha
  have hnodup := (List.nodup_append.mp h.nodup).1
  have hmem := List.mem_of_getLast? ha
  rw [List.erase_append_right _ fun hin =>
    (List.nodup_append.mp hnodup).2.2 e hin e List.mem_cons_self rfl, List.erase_cons_head]
  exact List.mem_append_left _ hmem

lemma Stacked.on_mem (h : Stacked s stack pool) (he : s.On e) : e ∈ stack := by
  induction he with
  | last hlast => exact List.mem_of_getLast? (h.last.symm.trans hlast)
  | previous _ ha ih => exact List.mem_of_mem_erase (h.previous_mem ih ha)

lemma Stacked.carried_remove (h : Stacked s stack pool) (ha : a ∈ stack) :
    Carried s (s.removeDelimiter a) stack pool (stack.erase a) (a :: pool) [] where
  stacked := h.erase ha
  perm := by
    refine List.perm_middle.trans ?_
    exact (List.perm_cons_erase ha).symm.append_right pool
  asked := fun hne => absurd rfl hne
  others := fun e _ hstack _ => by
    obtain ⟨before, after, rfl⟩ := List.append_of_mem ha
    have hnext : (s.entries a).next ≠ some e := fun heq => hstack (by
      rw [h.next_split] at heq
      exact List.mem_append_right _ (List.mem_cons_of_mem _ (List.mem_of_head? heq)))
    have hprevious : (s.entries a).previous ≠ some e := fun heq => hstack (by
      rw [h.previous_split] at heq
      exact List.mem_append_left _ (List.mem_of_getLast? heq))
    have hne : e ≠ a := by
      rintro rfl
      exact hstack (by simp)
    rw [h.entries_removed, removed, if_neg hne, if_neg hnext, if_neg hprevious]

/-! ### The steps -/

lemma chain_entries (s : State K) (entry : ℕ) (kind : EntryKind) (position : ℕ)
    (hlast : s.lastDelim ≠ some entry) (e : ℕ) :
    (s.chain entry kind position).entries e =
      if e = entry then { kind := kind, position := position, previous := s.lastDelim }
      else if s.lastDelim = some e then { s.entries e with next := some entry }
      else s.entries e := by
  rw [State.chain]
  cases hs : s.lastDelim with
  | none =>
    simp only [State.setEntry, Function.update_apply]
    simp
  | some last =>
    rw [hs] at hlast
    have hne : last ≠ entry := fun heq => hlast (congrArg some heq)
    simp only [State.setEntry, Function.update_apply, Option.some.injEq]
    by_cases he : e = entry
    · subst he
      simp [Ne.symm hne]
    · by_cases hl : e = last
      · subst hl
        simp [hne]
      · simp [he, hl, Ne.symm hl]

lemma chain_counts (s : State K) (entry : ℕ) (kind : EntryKind) (position : ℕ) :
    (s.chain entry kind position).freeDelimiters = s.freeDelimiters ∧
      (s.chain entry kind position).delimOpeners = s.delimOpeners ∧
      (s.chain entry kind position).delimClosers = s.delimClosers := by
  rw [State.chain]
  cases s.lastDelim <;> exact ⟨rfl, rfl, rfl⟩

/-- An entry that is on no stack becomes the last of one. -/
lemma Stacked.chain {left : List ℕ} (h : Stacked s stack pool) (he : e ∉ stack) (hleft : e ∉ left)
    (hsub : left.Sublist pool) (hpooled : ∀ a ∈ left, (s.entries a).next = Links.next left a)
    (kind : EntryKind) (position : ℕ) :
    Stacked (({ s with freeDelimiters := left.head? } : State K).chain e kind position)
      (stack ++ [e]) left := by
  obtain ⟨t, ht⟩ : ∃ t : State K, t = { s with freeDelimiters := left.head? } := ⟨_, rfl⟩
  have hlast : t.lastDelim = stack.getLast? := by
    rw [ht]
    exact h.last
  have hentries := chain_entries t e kind position (by
    rw [hlast]
    exact fun heq => he (List.mem_of_getLast? heq))
  rw [← ht]
  have hnodup := List.nodup_append.mp h.nodup
  have hstack : (stack ++ [e]).Nodup := by
    rw [List.nodup_append]
    exact ⟨hnodup.1, List.nodup_singleton e, fun x hx y hy heq =>
      he (by rwa [← List.mem_singleton.mp hy, ← heq])⟩
  -- an entry that was on the stack has a next where it was the last, and nothing else changes
  have hold : ∀ x ∈ stack, (t.chain e kind position).entries x =
      if stack.getLast? = some x then { s.entries x with next := some e } else s.entries x := by
    intro x hx
    have hne : x ≠ e := fun heq => he (heq ▸ hx)
    rw [hentries, if_neg hne, hlast, ht]
  have hbare : ∀ x ∈ stack, ((t.chain e kind position).entries x).bare = (s.entries x).bare := by
    intro x hx
    rw [hold x hx]
    split <;> rfl
  have hnew : (t.chain e kind position).entries e =
      { kind := kind, position := position, previous := stack.getLast? } := by
    rw [hentries, if_pos rfl, hlast]
  have hcounts := chain_counts t e kind position
  -- the new entry counts as no opener and no closer
  have hcount : ∀ (flag : Entry → Bool) (r : Rule), (∀ a b, a.bare = b.bare → flag a = flag b) →
      flag { kind := kind, position := position, previous := stack.getLast? } = false →
      ((stack ++ [e]).countP fun x => flag ((t.chain e kind position).entries x) &&
        ((t.chain e kind position).entries x).rule = r) =
      stack.countP fun x => flag (s.entries x) && (s.entries x).rule = r := by
    intro flag r hflag hnot
    rw [List.countP_append, List.countP_singleton, hnew, hnot, Bool.false_and]
    refine List.countP_congr fun x hx => ?_
    rw [hflag _ _ (hbare x hx), bare_rule (hbare x hx)]
  refine ⟨?_, fun x hx => ?_, fun x hx => ?_, ?_, fun x hx => ?_, ?_, fun r => ?_, fun r => ?_⟩
  · rw [List.nodup_append]
    refine ⟨hstack, hsub.nodup hnodup.2.1, fun x hx y hy heq => ?_⟩
    rcases List.mem_append.mp hx with hx | hx
    · exact hnodup.2.2 x hx y (hsub.mem hy) heq
    · rw [List.mem_singleton.mp hx] at heq
      exact hleft (heq ▸ hy)
  · rcases List.mem_append.mp hx with hx | hx
    · have hne : x ∉ [e] := fun hin => he (List.mem_singleton.mp hin ▸ hx)
      rw [hold x hx, prior_append_of_notMem hne, ← h.previous x hx]
      split <;> rfl
    · rw [List.mem_singleton.mp hx, hnew, Links.prior_split (by simp)]
  · rcases List.mem_append.mp hx with hx | hx
    · have hinsert := next_insert hstack (b := x) (by simpa using hx)
      rw [List.append_nil] at hinsert
      rw [hold x hx, hinsert, ← h.next x hx]
      split <;> rfl
    · rw [List.mem_singleton.mp hx, hnew, Links.next_split he]
      rfl
  · rw [List.getLast?_concat]
    rfl
  · have hne : x ≠ e := fun heq => hleft (heq ▸ hx)
    have hout : x ∉ stack := fun hin => hnodup.2.2 x hin x (hsub.mem hx) rfl
    rw [hentries, if_neg hne, hlast, if_neg fun heq => hout (List.mem_of_getLast? heq), ht]
    exact hpooled x hx
  · rw [hcounts.1, ht]
  · rw [hcount Entry.canOpen r (fun _ _ => bare_canOpen) rfl, hcounts.2.1, ht]
    exact h.openers r
  · rw [hcount Entry.canClose r (fun _ _ => bare_canClose) rfl, hcounts.2.2, ht]
    exact h.closers r

lemma Stacked.carried_chain (h : Stacked s stack pool) (left : List ℕ) (he : e ∉ stack)
    (hleft : (e :: left).Perm (drawn ++ pool)) (hsub : left.Sublist pool)
    (hasked : drawn ≠ [] → left = [])
    (hpooled : ∀ a ∈ left, (s.entries a).next = Links.next left a) (kind : EntryKind)
    (position : ℕ) (hnot : e ∉ left) :
    Carried s (({ s with freeDelimiters := left.head? } : State K).chain e kind position) stack pool
      (stack ++ [e]) left drawn where
  stacked := h.chain he hnot hsub hpooled kind position
  perm := by
    rw [List.append_assoc, List.singleton_append]
    refine (hleft.append_left stack).trans ?_
    rw [← List.append_assoc, ← List.append_assoc]
    exact List.perm_append_comm.append_right pool
  asked := hasked
  others := fun x hdrawn hstack hpool => by
    have hlast : s.lastDelim ≠ some e := by
      rw [h.last]
      exact fun heq => he (List.mem_of_getLast? heq)
    have hne : x ≠ e := by
      rintro rfl
      rcases List.mem_append.mp (hleft.mem_iff.mp List.mem_cons_self) with hin | hin
      · exact hdrawn hin
      · exact hpool hin
    have hentry := chain_entries ({ s with freeDelimiters := left.head? } : State K) e kind position
      hlast x
    rw [if_neg hne, if_neg fun heq => hstack (List.mem_of_getLast? (h.last.symm.trans heq))]
      at hentry
    exact hentry

/-- What a push does: nothing, where storage is refused, and else an entry of the pool, or the one
that the allocator grants, is the last of the stack. -/
lemma Stacked.push (h : Stacked s stack pool) (granted : Option ℕ) (kind : EntryKind)
    (position : ℕ) (hfresh : ∀ e ∈ s.drawn granted, e ∉ stack) :
    (s.pushDelimiterEntry granted kind position = ({ s with error := true }, none) ∧
      s.drawn granted = []) ∨
    ∃ t e left, s.pushDelimiterEntry granted kind position = (t, some e) ∧
      Carried s t stack pool (stack ++ [e]) left (s.drawn granted) ∧
      (t.entries e).bare = { kind := kind, position := position } := by
  have hbare : ∀ (left : List ℕ) (e : ℕ), e ∉ stack →
      ((({ s with freeDelimiters := left.head? } : State K).chain e kind position).entries e).bare =
        { kind := kind, position := position } := by
    intro left e he
    have hlast : s.lastDelim ≠ some e := by
      rw [h.last]
      exact fun heq => he (List.mem_of_getLast? heq)
    have hentry := chain_entries ({ s with freeDelimiters := left.head? } : State K) e kind position
      hlast e
    rw [if_pos rfl] at hentry
    rw [hentry]
    rfl
  cases hfree : s.freeDelimiters with
  | none =>
    have hpool : pool = [] := List.head?_eq_none_iff.mp (h.free.symm.trans hfree)
    subst hpool
    have hdrawn : s.drawn granted = granted.toList := if_pos hfree
    have hself : ({ s with freeDelimiters := ([] : List ℕ).head? } : State K) = s := by
      rw [← h.free]
    rw [State.pushDelimiterEntry, hdrawn, hfree]
    cases granted with
    | none => exact Or.inl ⟨rfl, rfl⟩
    | some e =>
      have he : e ∉ stack := hfresh e (by rw [hdrawn]; exact List.mem_singleton_self e)
      have hcarried := h.carried_chain [] he (show [e].Perm ([e] ++ []) from .refl _)
        (List.Sublist.refl _) (fun _ => rfl) (fun a ha => by cases ha) kind position
        List.not_mem_nil
      have hmade := hbare [] e he
      rw [hself] at hcarried hmade
      exact Or.inr ⟨_, e, [], rfl, hcarried, hmade⟩
  | some e =>
    obtain ⟨left, rfl⟩ : ∃ left, pool = e :: left := by
      have hhead := h.free.symm.trans hfree
      cases pool with
      | nil => cases hhead
      | cons a left => exact ⟨left, congrArg (· :: left) (Option.some.inj hhead)⟩
    have hnodup := List.nodup_append.mp h.nodup
    have he : e ∉ stack := fun hin => hnodup.2.2 e hin e List.mem_cons_self rfl
    have hnot : e ∉ left := (List.nodup_cons.mp hnodup.2.1).1
    have hnext : (s.entries e).next = left.head? := by
      rw [h.pooled e List.mem_cons_self, Links.next, if_pos rfl]
    have hdrawn : s.drawn granted = [] := if_neg (by rw [hfree]; exact Option.some_ne_none e)
    have hpooled : ∀ a ∈ left, (s.entries a).next = Links.next left a := fun a ha => by
      rw [h.pooled a (List.mem_cons_of_mem _ ha), Links.next, if_neg]
      rintro rfl
      exact hnot ha
    rw [State.pushDelimiterEntry, hdrawn, hfree]
    refine Or.inr ⟨_, e, left, rfl, ?_, ?_⟩
    · rw [if_neg (Option.some_ne_none e), hnext]
      exact h.carried_chain left he (List.Perm.refl _) (List.sublist_cons_self e left)
        (fun hne => absurd rfl hne) hpooled kind position hnot
    · rw [if_neg (Option.some_ne_none e), hnext]
      exact hbare left e he

/-- An entry of the stack changes, its links apart, and the counts follow. -/
lemma Stacked.set (h : Stacked s stack pool) (he : e ∈ stack) (f : Entry → Entry)
    (hprevious : ∀ x, (f x).previous = x.previous) (hnext : ∀ x, (f x).next = x.next)
    (openers closers : Rule → ℤ)
    (hopeners : ∀ r, openers r = stack.countP fun x =>
      ((s.setEntry e f).entries x).canOpen && ((s.setEntry e f).entries x).rule = r)
    (hclosers : ∀ r, closers r = stack.countP fun x =>
      ((s.setEntry e f).entries x).canClose && ((s.setEntry e f).entries x).rule = r) :
    Carried s { s.setEntry e f with delimOpeners := openers, delimClosers := closers } stack pool
      stack pool [] := by
  have hsame : ∀ x, ((s.setEntry e f).entries x).previous = (s.entries x).previous ∧
      ((s.setEntry e f).entries x).next = (s.entries x).next := by
    intro x
    rw [State.setEntry]
    by_cases hx : x = e
    · subst hx
      simp [hprevious, hnext]
    · simp [hx]
  refine Stacked.carried ⟨h.nodup, fun x hx => (hsame x).1.trans (h.previous x hx),
    fun x hx => (hsame x).2.trans (h.next x hx), h.last,
    fun x hx => (hsame x).2.trans (h.pooled x hx), h.free, hopeners, hclosers⟩ fun x hx => ?_
  have hne : x ≠ e := fun heq => hx (heq ▸ he)
  exact Function.update_of_ne hne _ _

/-- How many of a stack count once its last entry, which did not, is another. -/
lemma countP_dressed (entries : ℕ → Entry) (test : Entry → Bool) (x : Entry) (he : e ∉ stack)
    (hnot : test (entries e) = false) :
    (((stack ++ [e]).countP fun a => test (Function.update entries e x a) : ℕ) : ℤ) =
      ((stack ++ [e]).countP fun a => test (entries a) : ℕ) + if test x then 1 else 0 := by
  have hcongr : stack.countP (fun a => test (Function.update entries e x a)) =
      stack.countP fun a => test (entries a) := by
    refine List.countP_congr fun a ha => ?_
    have hne : a ≠ e := fun heq => he (heq ▸ ha)
    rw [Function.update_of_ne hne]
  rw [List.countP_append, List.countP_append, List.countP_singleton, List.countP_singleton, hnot,
    Function.update_self, hcongr]
  cases test x <;> rfl

lemma Stacked.carried_dress (h : Stacked s (stack ++ [e]) pool) (owner : Option ℕ) (rule : Rule)
    (canOpen canClose : Bool) (text : ℕ) (hopen : (s.entries e).canOpen = false)
    (hclose : (s.entries e).canClose = false) :
    Carried s (s.dress e owner rule canOpen canClose text) (stack ++ [e]) pool (stack ++ [e]) pool
      [] := by
  have he : e ∉ stack := fun hin =>
    (List.nodup_append.mp (List.nodup_append.mp h.nodup).1).2.2 e hin e (List.mem_singleton_self e)
      rfl
  rw [State.dress]
  obtain ⟨length, hlength⟩ : ∃ length,
    length = (((s.nodes text).bind (·.literal)).getD []).length := ⟨_, rfl⟩
  rw [← hlength]
  refine h.set (List.mem_append_right _ (List.mem_singleton_self e))
    (fun x => x.dress owner rule canOpen canClose text length) (fun _ => rfl) (fun _ => rfl) _ _
    (fun r => ?_) fun r => ?_
  · rw [counted, h.openers r]
    exact (countP_dressed s.entries (fun x => x.canOpen && x.rule = r)
      ((s.entries e).dress owner rule canOpen canClose text length) he (by simp [hopen])).symm
  · rw [counted, h.closers r]
    exact (countP_dressed s.entries (fun x => x.canClose && x.rule = r)
      ((s.entries e).dress owner rule canOpen canClose text length) he (by simp [hclose])).symm

/-- What changes neither the entries nor the counts leaves the stack. -/
lemma Stacked.carried_others (h : Stacked s stack pool) (scaffolds : ℕ → Scaffold)
    (nodes : ℕ → Option (Node K)) (asked : Rule → Bool) (undecided : ℕ) (error : Bool) :
    Carried s { s with
      scaffolds := scaffolds, nodes := nodes, asked := asked, undecided := undecided,
      error := error } stack pool stack pool [] :=
  Stacked.carried ⟨h.nodup, h.previous, h.next, h.last, h.pooled, h.free, h.openers, h.closers⟩
    fun _ _ => rfl

lemma Stacked.carried_undecide (h : Stacked s stack pool) (entry : Entry) :
    Carried s (s.undecide entry) stack pool stack pool [] := by
  refine (h.undecide entry).carried fun _ _ => ?_
  rw [State.undecide]
  split <;> rfl

/-- An entry whose flags stay as they are. -/
lemma Stacked.carried_set (h : Stacked s stack pool) (he : e ∈ stack) (f : Entry → Entry)
    (hprevious : ∀ x, (f x).previous = x.previous) (hnext : ∀ x, (f x).next = x.next)
    (hopen : ∀ x, (f x).canOpen = x.canOpen) (hclose : ∀ x, (f x).canClose = x.canClose)
    (hrule : ∀ x, (f x).rule = x.rule) :
    Carried s (s.setEntry e f) stack pool stack pool [] := by
  have hsame : ∀ x, ((s.setEntry e f).entries x).canOpen = (s.entries x).canOpen ∧
      ((s.setEntry e f).entries x).canClose = (s.entries x).canClose ∧
      ((s.setEntry e f).entries x).rule = (s.entries x).rule := by
    intro x
    rw [State.setEntry]
    by_cases hx : x = e
    · subst hx
      simp [hopen, hclose, hrule]
    · simp [hx]
  refine h.set he f hprevious hnext s.delimOpeners s.delimClosers (fun r => ?_) fun r => ?_
  · simp only [hsame]
    exact h.openers r
  · simp only [hsame]
    exact h.closers r

/-- The entries that a reduction meets are on the stack, and it moves them to the pool. -/
lemma Stacked.carried_reduceRange {before entry : Option ℕ} {fuel : ℕ} (boundary : Bool)
    (h : Stacked s stack pool) (hentry : ∀ e ∈ entry, e ∈ stack)
    (heq : State.reduceRange before fuel entry boundary s = some s') :
    ∃ stack' pool', Carried s s' stack pool stack' pool' [] := by
  induction fuel generalizing s entry stack pool boundary with
  | zero => cases heq
  | succ fuel ih =>
    rw [State.reduceRange] at heq
    split at heq
    next =>
      cases heq
      exact ⟨stack, pool, h.carried fun _ _ => rfl⟩
    next =>
      obtain ⟨e, rfl, hnext⟩ := Option.bind_eq_some_iff.mp heq
      have he := hentry e rfl
      have hprevious : ∀ a ∈ (s.entries e).previous, a ∈ stack.erase e := fun a ha =>
        h.previous_mem he ha
      dsimp only at hnext
      split at hnext
      next => exact ih true h (fun a ha => List.mem_of_mem_erase (hprevious a ha)) hnext
      next =>
        obtain ⟨t, ht⟩ : ∃ t, t = (if (s.entries e).kind = .marker ∧ (s.entries e).canOpen = true ∧
            s.asked (s.entries e).rule = true then s.undecide (s.entries e) else s) := ⟨_, rfl⟩
        have hmarked : Carried s t stack pool stack pool [] := by
          rw [ht]
          split
          next => exact h.carried_undecide _
          next => exact h.carried fun _ _ => rfl
        rw [← ht] at hnext
        have hremoved := hmarked.trans (hmarked.stacked.carried_remove he)
          fun hne => absurd rfl hne
        obtain ⟨stack', pool', hrest⟩ := ih boundary hremoved.stacked hprevious hnext
        exact ⟨stack', pool', hremoved.trans hrest fun hne => absurd rfl hne⟩

lemma Stacked.carried_clear {fuel : ℕ} (h : Stacked s stack pool)
    (heq : s.clearDelimiters fuel = some s') :
    ∃ stack' pool', Carried s s' stack pool stack' pool' [] := by
  induction fuel generalizing s stack pool with
  | zero => cases heq
  | succ fuel ih =>
    rw [State.clearDelimiters] at heq
    split at heq
    next =>
      cases heq
      exact ⟨stack, pool, h.carried fun _ _ => rfl⟩
    next e hlast =>
      have hremoved := h.carried_remove (List.mem_of_getLast? (h.last.symm.trans hlast))
      obtain ⟨stack', pool', hrest⟩ := ih hremoved.stacked heq
      exact ⟨stack', pool', hremoved.trans hrest fun hne => absurd rfl hne⟩

lemma Stacked.carried_complete (h : Stacked s stack pool) (whitespace : Bool) :
    ∃ stack' pool', Carried s (s.completeInlineToken whitespace) stack pool stack' pool' [] := by
  rw [State.completeInlineToken]
  split
  next => exact ⟨stack, pool, h.carried fun _ _ => rfl⟩
  next e hlast =>
    have he : e ∈ stack := List.mem_of_getLast? (h.last.symm.trans hlast)
    split
    next => exact ⟨stack, pool, h.carried fun _ _ => rfl⟩
    next =>
      cases whitespace with
      | false => exact ⟨_, _, h.carried_remove he⟩
      | true =>
        have hset := h.carried_set he (fun x => { x with kind := .boundary, node := none })
          (fun _ => rfl) (fun _ => rfl) (fun _ => rfl) (fun _ => rfl) fun _ => rfl
        rw [if_pos rfl]
        dsimp only
        cases hprevious : ((s.setEntry e fun x =>
            { x with kind := .boundary, node := none }).entries e).previous with
        | none => exact ⟨_, _, hset⟩
        | some a =>
          dsimp only
          split
          next =>
            have ha := List.mem_of_mem_erase (hset.stacked.previous_mem he hprevious)
            exact ⟨_, _, hset.trans (hset.stacked.carried_remove ha) fun hne => absurd rfl hne⟩
          next => exact ⟨_, _, hset⟩

lemma Stacked.carried_push (h : Stacked s stack pool) (granted : Option ℕ) (kind : EntryKind)
    (position : ℕ) (hfresh : ∀ e ∈ s.drawn granted, e ∉ stack) :
    ∃ stack' pool', Carried s (s.pushDelimiterEntry granted kind position).1 stack pool stack' pool'
      (s.drawn granted) := by
  rcases h.push granted kind position hfresh with ⟨heq, hdrawn⟩ | ⟨t, e, left, heq, hcarried, -⟩
  · rw [heq, hdrawn]
    exact ⟨_, _, h.carried_others s.scaffolds s.nodes s.asked s.undecided true⟩
  · rw [heq]
    exact ⟨_, _, hcarried⟩

/-- A step moves entries between the stack and the pool. -/
theorem Stacked.step (h : Stacked s stack pool) (hstep : s.Step drawn s')
    (hfresh : ∀ e ∈ drawn, e ∉ stack) :
    ∃ stack' pool', Carried s s' stack pool stack' pool' drawn := by
  cases hstep with
  | push granted kind position => exact h.carried_push granted kind position hfresh
  | boundary granted position hlast =>
    rw [State.endsInBoundary] at hlast
    rw [State.pushBoundary]
    cases hs : s.lastDelim with
    | none => exact h.carried_push granted .boundary position hfresh
    | some e =>
      rw [hs, Option.any_some, decide_eq_false_iff_not] at hlast
      dsimp only
      rw [if_neg hlast]
      exact h.carried_push granted .boundary position hfresh
  | again granted position hlast =>
    rw [State.endsInBoundary] at hlast
    rw [State.pushBoundary]
    cases hs : s.lastDelim with
    | none =>
      rw [hs] at hlast
      cases hlast
    | some e =>
      rw [hs, Option.any_some, decide_eq_true_eq] at hlast
      dsimp only
      rw [if_pos hlast]
      exact ⟨_, _, h.carried_set (List.mem_of_getLast? (h.last.symm.trans hs)) _ (fun _ => rfl)
        (fun _ => rfl) (fun _ => rfl) (fun _ => rfl) fun _ => rfl⟩
  | delimiter granted owner rule canOpen canClose text pos hrule =>
    rw [State.pushDelimiter]
    dsimp only
    rw [if_neg hrule]
    rcases h.push granted .marker pos hfresh with ⟨heq, hdrawn⟩ | ⟨t, e, left, heq, hcarried, hbare⟩
    · rw [heq, hdrawn]
      exact ⟨_, _, h.carried_others s.scaffolds s.nodes s.asked s.undecided true⟩
    · rw [heq]
      have hopen : (t.entries e).canOpen = false := congrArg Entry.canOpen hbare
      have hclose : (t.entries e).canClose = false := congrArg Entry.canClose hbare
      exact ⟨_, _, hcarried.trans
        (hcarried.stacked.carried_dress owner rule canOpen canClose text hopen hclose)
        hcarried.asked⟩
  | refused granted owner rule canOpen canClose text pos hrefused =>
    cases text with
    | none => exact ⟨_, _, h.carried_others s.scaffolds s.nodes s.asked s.undecided true⟩
    | some text =>
      rw [State.pushDelimiter]
      dsimp only
      rw [if_pos (hrefused.resolve_left (Option.some_ne_none text))]
      exact ⟨_, _, h.carried fun _ _ => rfl⟩
  | complete whitespace => exact h.carried_complete whitespace
  | remove e he => exact ⟨_, _, h.carried_remove (h.on_mem he)⟩
  | reduce fuel before after hafter heq =>
    refine h.carried_reduceRange false (fun e he => ?_) heq
    cases after with
    | none => exact List.mem_of_getLast? (h.last.symm.trans he)
    | some a => exact List.mem_of_mem_erase (h.previous_mem (h.on_mem (hafter a rfl)) he)
  | clear fuel heq => exact h.carried_clear heq
  | others scaffolds nodes asked undecided error =>
    exact ⟨_, _, h.carried_others scaffolds nodes asked undecided error⟩

end

/-! ### The parser -/

/-- What one inline state holds of its stack: `markdown_core_inline_state`. -/
structure InlineState where
  lastDelim : Option ℕ := none
  delimOpeners : Rule → ℤ := fun _ => 0
  delimClosers : Rule → ℤ := fun _ => 0
  asked : Rule → Bool := fun _ => false
  undecided : ℕ
  error : Bool := false

/-- The slots, the entries and the pool of a parser, and its inline states. -/
structure Parser (K : Type) where
  scaffolds : ℕ → Scaffold
  nodes : ℕ → Option (Node K)
  entries : ℕ → Entry
  freeDelimiters : Option ℕ
  states : ℕ → InlineState

namespace Parser

/-- What one inline state works on. -/
def view (p : Parser K) (i : ℕ) : State K where
  scaffolds := p.scaffolds
  nodes := p.nodes
  entries := p.entries
  lastDelim := (p.states i).lastDelim
  freeDelimiters := p.freeDelimiters
  delimOpeners := (p.states i).delimOpeners
  delimClosers := (p.states i).delimClosers
  asked := (p.states i).asked
  undecided := (p.states i).undecided
  error := (p.states i).error

/-- What one inline state leaves. -/
def put (p : Parser K) (i : ℕ) (s : State K) : Parser K where
  scaffolds := s.scaffolds
  nodes := s.nodes
  entries := s.entries
  freeDelimiters := s.freeDelimiters
  states := Function.update p.states i
    ⟨s.lastDelim, s.delimOpeners, s.delimClosers, s.asked, s.undecided, s.error⟩

/-- The loop that frees the pool with its parser (`core/blocks.c`): the entries it frees. -/
def freed (p : Parser K) : ℕ → Option ℕ → List ℕ
  | 0, _ => []
  | _ + 1, none => []
  | fuel + 1, some entry => entry :: freed p fuel (p.entries entry).next

/-- Steps of the inline states, in any order: the entries granted, and the parsers on the way. The
allocator grants none that it has granted before. -/
inductive Run : List ℕ → List (Parser K) → Parser K → Prop
  | start (p : Parser K) (hfree : p.freeDelimiters = none)
    (hstates : ∀ i, ∃ undecided, p.states i = { undecided := undecided }) : Run [] [p] p
  | step {granted drawn : List ℕ} {before : List (Parser K)} {p : Parser K} {s : State K} (i : ℕ)
    (h : Run granted before p) (hstep : (p.view i).Step drawn s)
    (hfresh : ∀ e ∈ drawn, e ∉ granted) :
    Run (drawn ++ granted) (p.put i s :: before) (p.put i s)

end Parser

/-- Every entry granted is on one stack or in the pool. -/
structure Tracked (p : Parser K) (stackOf : ℕ → List ℕ) (pool granted : List ℕ) : Prop where
  stacked : ∀ i, Stacked (p.view i) (stackOf i) pool
  apart : ∀ i j, i ≠ j → ∀ e ∈ stackOf i, e ∉ stackOf j
  held : ∀ e, e ∈ granted ↔ e ∈ pool ∨ ∃ i, e ∈ stackOf i
  nodup : granted.Nodup

section

variable {p : Parser K} {s : State K} {stackOf : ℕ → List ℕ}
  {stack' pool pool' drawn granted : List ℕ} {before : List (Parser K)}

lemma view_put (p : Parser K) (i : ℕ) (s : State K) : (p.put i s).view i = s := by
  simp [Parser.view, Parser.put]

lemma view_put_of_ne {i j : ℕ} (hne : j ≠ i) :
    (p.put i s).view j = { s with
      lastDelim := (p.view j).lastDelim
      delimOpeners := (p.view j).delimOpeners
      delimClosers := (p.view j).delimClosers
      asked := (p.view j).asked
      undecided := (p.view j).undecided
      error := (p.view j).error } := by
  simp [Parser.view, Parser.put, hne]

lemma Tracked.start (hfree : p.freeDelimiters = none)
    (hstates : ∀ i, ∃ undecided, p.states i = { undecided := undecided }) :
    Tracked p (fun _ => []) [] [] := by
  refine ⟨fun i => ?_, fun i j _ e he => absurd he List.not_mem_nil, fun e => ?_, List.nodup_nil⟩
  · obtain ⟨undecided, hstate⟩ := hstates i
    have hview : p.view i = ⟨p.scaffolds, p.nodes, p.entries, none, none, fun _ => 0, fun _ => 0,
        fun _ => false, undecided, false⟩ := by
      rw [Parser.view, hstate, hfree]
    rw [hview]
    exact ⟨List.nodup_nil, fun e he => absurd he List.not_mem_nil,
      fun e he => absurd he List.not_mem_nil, rfl, fun e he => absurd he List.not_mem_nil, rfl,
      fun _ => rfl, fun _ => rfl⟩
  · simp

/-- Another inline state's stack is as it was. -/
lemma Tracked.stacked_put {i j : ℕ} (h : Tracked p stackOf pool granted)
    (hcarried : Carried (p.view i) s (stackOf i) pool stack' pool' drawn)
    (hfresh : ∀ e ∈ drawn, e ∉ granted) (hne : j ≠ i) :
    Stacked ((p.put i s).view j) (stackOf j) pool' := by
  have hj := h.stacked j
  have hnodup := List.nodup_append.mp hj.nodup
  have hpool := (List.nodup_append.mp hcarried.stacked.nodup).2.1
  -- none of the stack's entries is one that the step may change
  have hout : ∀ e ∈ stackOf j, e ∉ drawn ∧ e ∉ stackOf i ∧ e ∉ pool := fun e he =>
    ⟨fun hin => hfresh e hin ((h.held e).mpr (Or.inr ⟨j, he⟩)), h.apart j i hne e he,
      fun hin => hnodup.2.2 e he e hin rfl⟩
  have hsame : ∀ e ∈ stackOf j, s.entries e = (p.view j).entries e := fun e he =>
    hcarried.others e (hout e he).1 (hout e he).2.1 (hout e he).2.2
  rw [view_put_of_ne hne]
  refine ⟨?_, fun e he => ?_, fun e he => ?_, hj.last, hcarried.stacked.pooled,
    hcarried.stacked.free, fun r => ?_, fun r => ?_⟩
  · rw [List.nodup_append]
    refine ⟨hnodup.1, hpool, fun e he a ha heq => ?_⟩
    have hmem : a ∈ drawn ++ (stackOf i ++ pool) :=
      hcarried.perm.mem_iff.mp (List.mem_append_right stack' ha)
    rw [← heq, List.mem_append, List.mem_append] at hmem
    obtain ⟨hdrawn, hstack, hnot⟩ := hout e he
    rcases hmem with hmem | hmem | hmem
    · exact hdrawn hmem
    · exact hstack hmem
    · exact hnot hmem
  · dsimp only
    rw [hsame e he]
    exact hj.previous e he
  · dsimp only
    rw [hsame e he]
    exact hj.next e he
  · refine (hj.openers r).trans (congrArg Nat.cast (List.countP_congr fun e he => ?_))
    dsimp only
    rw [hsame e he]
  · refine (hj.closers r).trans (congrArg Nat.cast (List.countP_congr fun e he => ?_))
    dsimp only
    rw [hsame e he]

/-- A step of one inline state keeps every entry on one stack or in the pool. -/
lemma Tracked.put {i : ℕ} (h : Tracked p stackOf pool granted)
    (hcarried : Carried (p.view i) s (stackOf i) pool stack' pool' drawn)
    (hfresh : ∀ e ∈ drawn, e ∉ granted) :
    Tracked (p.put i s) (Function.update stackOf i stack') pool' (drawn ++ granted) := by
  have hmem : ∀ e, e ∈ stack' ∨ e ∈ pool' ↔ e ∈ drawn ∨ e ∈ stackOf i ∨ e ∈ pool := fun e => by
    have hiff := hcarried.perm.mem_iff (a := e)
    simpa only [List.mem_append] using hiff
  have hdrawn : drawn.Nodup :=
    (List.nodup_append.mp (hcarried.perm.nodup_iff.mp hcarried.stacked.nodup)).1
  have hother : ∀ j, j ≠ i → ∀ e ∈ stackOf j, e ∉ stack' := fun j hne e he hin => by
    have hheld : e ∈ granted := (h.held e).mpr (Or.inr ⟨j, he⟩)
    rcases (hmem e).mp (Or.inl hin) with hin | hin | hin
    · exact hfresh e hin hheld
    · exact h.apart j i hne e he hin
    · exact (List.nodup_append.mp (h.stacked j).nodup).2.2 e he e hin rfl
  refine ⟨fun j => ?_, fun j k hne e => ?_, fun e => ?_, ?_⟩
  · by_cases hj : j = i
    · subst hj
      rw [view_put, Function.update_self]
      exact hcarried.stacked
    · rw [Function.update_of_ne hj]
      exact h.stacked_put hcarried hfresh hj
  · by_cases hj : j = i
    · subst hj
      rw [Function.update_self, Function.update_of_ne (Ne.symm hne)]
      exact fun he hin => hother k (Ne.symm hne) e hin he
    · rw [Function.update_of_ne hj]
      by_cases hk : k = i
      · subst hk
        rw [Function.update_self]
        exact hother j hj e
      · rw [Function.update_of_ne hk]
        exact h.apart j k hne e
  · rw [List.mem_append, h.held]
    constructor
    · rintro (hin | hin | ⟨j, hin⟩)
      · exact ((hmem e).mpr (Or.inl hin)).symm.imp_right fun hin => ⟨i, by simpa using hin⟩
      · exact ((hmem e).mpr (Or.inr (Or.inr hin))).symm.imp_right fun hin => ⟨i, by simpa using hin⟩
      · by_cases hj : j = i
        · subst hj
          exact ((hmem e).mpr (Or.inr (Or.inl hin))).symm.imp_right
            fun hin => ⟨j, by simpa using hin⟩
        · exact Or.inr ⟨j, by simpa [hj] using hin⟩
    · have hback : e ∈ stack' ∨ e ∈ pool' → e ∈ drawn ∨ e ∈ pool ∨ ∃ i, e ∈ stackOf i := fun hin =>
        ((hmem e).mp hin).imp_right fun hin => hin.symm.imp_right fun hin => ⟨i, hin⟩
      rintro (hin | ⟨j, hin⟩)
      · exact hback (Or.inr hin)
      · by_cases hj : j = i
        · subst hj
          rw [Function.update_self] at hin
          exact hback (Or.inl hin)
        · rw [Function.update_of_ne hj] at hin
          exact Or.inr (Or.inr ⟨j, hin⟩)
  · rw [List.nodup_append]
    exact ⟨hdrawn, h.nodup, fun e he a ha heq => hfresh e he (heq ▸ ha)⟩

/-- The parser frees the entries of the pool, each once. -/
lemma freed_eq {fuel : ℕ} (hnodup : pool.Nodup)
    (hpooled : ∀ e ∈ pool, (p.entries e).next = Links.next pool e) (hfuel : pool.length ≤ fuel) :
    p.freed fuel pool.head? = pool := by
  induction pool generalizing fuel with
  | nil => cases fuel <;> rfl
  | cons e pool ih =>
    cases fuel with
    | zero => cases hfuel
    | succ fuel =>
      obtain ⟨he, hrest⟩ := List.nodup_cons.mp hnodup
      rw [List.head?_cons, Parser.freed, hpooled e List.mem_cons_self, Links.next, if_pos rfl]
      refine congrArg (e :: ·) (ih hrest (fun a ha => ?_) (Nat.le_of_succ_le_succ hfuel))
      rw [hpooled a (List.mem_cons_of_mem _ ha), Links.next, if_neg]
      rintro rfl
      exact he ha

/-- Every entry granted stays on one stack or in the pool; as many as have been granted were once on
stacks together. -/
lemma tracked_run (h : Parser.Run granted before p) :
    ∃ stackOf pool, Tracked p stackOf pool granted ∧
      ∃ q ∈ before, ∃ stackOf, Tracked q stackOf [] granted := by
  induction h with
  | start p hfree hstates =>
    exact ⟨_, _, .start hfree hstates, p, List.mem_singleton_self p, _, .start hfree hstates⟩
  | @step granted drawn before p s i _ hstep hfresh ih =>
    obtain ⟨stackOf, pool, htracked, q, hq, full, hfull⟩ := ih
    obtain ⟨stack', pool', hcarried⟩ := (htracked.stacked i).step hstep fun e he hin =>
      hfresh e he ((htracked.held e).mpr (Or.inr ⟨i, hin⟩))
    have hput := htracked.put hcarried hfresh
    refine ⟨_, _, hput, ?_⟩
    by_cases hdrawn : drawn = []
    · subst hdrawn
      exact ⟨q, List.mem_cons_of_mem _ hq, full, hfull⟩
    · rw [hcarried.asked hdrawn] at hput
      exact ⟨_, List.mem_cons_self, _, hput⟩

/-- Whatever order the inline states of a parser go on in, each has its own stack, linked both ways
and counted, and every entry that the allocator granted is on one of them or in the pool, once. The
allocator has granted as many as were once on stacks together, with none in the pool. Where every
stack has been cleared, the parser frees every entry granted, each once. -/
theorem pool_holds_most (h : Parser.Run granted before p) :
    ∃ stackOf pool, Tracked p stackOf pool granted ∧
      (∃ q ∈ before, ∃ stackOf, Tracked q stackOf [] granted) ∧
      ((∀ i, (p.states i).lastDelim = none) →
        (p.freed granted.length p.freeDelimiters).Perm granted) := by
  obtain ⟨stackOf, pool, htracked, hmost⟩ := tracked_run h
  refine ⟨stackOf, pool, htracked, hmost, fun hclear => ?_⟩
  have hzero := htracked.stacked 0
  have hnodup := (List.nodup_append.mp hzero.nodup).2.1
  -- no stack has an entry, so the pool has all of them
  have hempty : ∀ i, stackOf i = [] := fun i =>
    List.getLast?_eq_none_iff.mp ((htracked.stacked i).last.symm.trans (hclear i))
  have hperm : pool.Perm granted := by
    refine (List.perm_ext_iff_of_nodup hnodup htracked.nodup).mpr fun e => ?_
    rw [htracked.held]
    constructor
    · exact Or.inl
    · rintro (hin | ⟨i, hin⟩)
      · exact hin
      · rw [hempty i] at hin
        cases hin
  have hfree : p.freeDelimiters = pool.head? := hzero.free
  rw [hfree, freed_eq hnodup hzero.pooled (le_of_eq hperm.length_eq)]
  exact hperm

end

/-- A parser before its first inline state. -/
def begun : Parser Unit :=
  ⟨fun _ => {}, fun _ => none, fun _ => {}, none, fun _ => { undecided := 0 }⟩

/-- One inline state, suspended, has an entry, and another pushes one and gives it back. -/
def suspended : Parser Unit :=
  let p := begun.put 0 ((begun.view 0).pushDelimiterEntry (some 7) .marker 0).1
  let p := p.put 1 ((p.view 1).pushBoundary (some 4) 9)
  p.put 1 ((p.view 1).removeDelimiter 4)

/-- The first goes on, takes the entry that the other gave back, and clears its stack. -/
def resumed : Parser Unit :=
  let p := suspended.put 0 ((suspended.view 0).pushDelimiterEntry none .boundary 3).1
  let p := p.put 0 ((p.view 0).removeDelimiter 7)
  p.put 0 ((p.view 0).removeDelimiter 4)

theorem pool_holds_most_resumed : ∃ before, Parser.Run [4, 7] before resumed ∧
    ∃ stackOf pool, Tracked resumed stackOf pool [4, 7] ∧
      (∃ q ∈ before, ∃ stackOf, Tracked q stackOf [] [4, 7]) ∧
      ((∀ i, (resumed.states i).lastDelim = none) →
        (resumed.freed 2 resumed.freeDelimiters).Perm [4, 7]) := by
  have hfirst := Parser.Run.step 0 (.start begun rfl fun _ => ⟨0, rfl⟩)
    (.push (some 7) .marker 0) fun _ _ => List.not_mem_nil
  have hsecond := hfirst.step 1 (.boundary (some 4) 9 rfl) (by decide)
  have hback := hsecond.step 1 (.remove 4 (.last rfl)) (by decide)
  have hagain := hback.step 0 (.push none .boundary 3) (by decide)
  have hmiddle := hagain.step 0 (.remove 7 (.previous (.last rfl) rfl)) (by decide)
  have hlast := hmiddle.step 0 (.remove 4 (.last rfl)) (by decide)
  exact ⟨_, hlast, pool_holds_most hlast⟩

end MarkdownCore.Delimiter
