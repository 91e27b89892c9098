import MarkdownCore.Library.Links
import MarkdownCore.Delimiter.Stack

/-!
# The nodes under a holder

The scaffold links the nodes under a holder into a list, and so those under each of them: a forest.
A node that is unlinked leaves its list, and the nodes between two of a list become the list under a
new one, which takes their place.
-/

namespace MarkdownCore.Delimiter

open Links

variable {K : Type} {f f' : ℕ → Scaffold} {holder : ℕ} {l l' : List ℕ}

/-- The nodes that the scaffold links under a holder, in order. -/
structure Holds (f : ℕ → Scaffold) (holder : ℕ) (l : List ℕ) : Prop where
  nodup : l.Nodup
  apart : holder ∉ l
  parent : ∀ p ∈ l, (f p).parent = some holder
  next : ∀ p ∈ l, (f p).next = Links.next l p
  prev : ∀ p ∈ l, (f p).prev = prior l p
  first : (f holder).first = l.head?
  last : (f holder).last = l.getLast?

/-- The nodes under a holder, each before those under it. -/
inductive Forest (f : ℕ → Scaffold) : ℕ → List ℕ → Prop where
  | node {holder : ℕ} {l : List ℕ} (sub : ℕ → List ℕ) (hholds : Holds f holder l)
    (hsub : ∀ p ∈ l, Forest f p (sub p)) : Forest f holder (l.flatMap fun p => p :: sub p)

/-! ### Lists -/

lemma Holds.congr (h : Holds f holder l)
    (hlinks : ∀ p ∈ l, (f' p).parent = (f p).parent ∧ (f' p).next = (f p).next ∧
      (f' p).prev = (f p).prev)
    (hends : (f' holder).first = (f holder).first ∧ (f' holder).last = (f holder).last) :
    Holds f' holder l where
  nodup := h.nodup
  apart := h.apart
  parent p hp := (hlinks p hp).1.trans (h.parent p hp)
  next p hp := (hlinks p hp).2.1.trans (h.next p hp)
  prev p hp := (hlinks p hp).2.2.trans (h.prev p hp)
  first := hends.1.trans h.first
  last := hends.2.trans h.last

/-- Links name one list. -/
lemma Holds.unique (h : Holds f holder l) (h' : Holds f holder l') : l = l' :=
  eq_of_next h.nodup h'.nodup (h.first.symm.trans h'.first) h.next h'.next

lemma Forest.congr {ids : List ℕ} (h : Forest f holder ids)
    (hsame : ∀ p ∈ ids, f' p = f p)
    (hends : (f' holder).first = (f holder).first ∧ (f' holder).last = (f holder).last) :
    Forest f' holder ids := by
  induction h with
  | @node holder l sub hholds hsub ih =>
    have hin : ∀ p ∈ l, ∀ q ∈ p :: sub p, f' q = f q := by
      intro p hp q hq
      exact hsame q (List.mem_flatMap.mpr ⟨p, hp, hq⟩)
    have hself : ∀ p ∈ l, f' p = f p := fun p hp => hin p hp p List.mem_cons_self
    refine .node sub (hholds.congr (fun p hp => by simp [hself p hp]) hends) fun p hp => ?_
    refine ih p hp (fun q hq => hin p hp q (List.mem_cons_of_mem _ hq)) ?_
    rw [hself p hp]
    exact ⟨rfl, rfl⟩

lemma Holds.next_split {a : ℕ} (h : Holds f holder (l ++ a :: l')) : (f a).next = l'.head? := by
  have ha : a ∉ l := fun hin =>
    (List.nodup_append.mp h.nodup).2.2 a hin a List.mem_cons_self rfl
  rw [h.next a (by simp), Links.next_split ha]

lemma Holds.prev_split {a : ℕ} (h : Holds f holder (l ++ a :: l')) : (f a).prev = l.getLast? := by
  have ha : a ∉ l' := (List.nodup_cons.mp (List.nodup_append.mp h.nodup).2.1).1
  rw [h.prev a (by simp), prior_split ha]

/-- Nothing is under a node that has no first. -/
lemma Forest.eq_nil {ids : List ℕ} (h : Forest f holder ids) (hfirst : (f holder).first = none) :
    ids = [] := by
  cases h with
  | node sub hholds hsub =>
    rw [hholds.first, List.head?_eq_none_iff] at hfirst
    rw [hfirst, List.flatMap_nil]

/-- A node under one of a list, each node listed once, is none of the list. -/
lemma notMem_of_nodup_flatMap {sub : ℕ → List ℕ} {p q : ℕ}
    (h : (l.flatMap fun p => p :: sub p).Nodup) (hp : p ∈ l) (hq : q ∈ sub p) : q ∉ l := by
  intro hin
  have hself : ∀ {m : List ℕ}, q ∈ m → q ∈ m.flatMap fun p => p :: sub p :=
    fun hm => List.mem_flatMap.mpr ⟨q, hm, List.mem_cons_self⟩
  obtain ⟨first, last, rfl⟩ := List.append_of_mem hp
  rw [List.flatMap_append, List.flatMap_cons, List.nodup_append, List.nodup_append,
    List.nodup_cons] at h
  obtain ⟨-, ⟨⟨hp', -⟩, -, hlast⟩, hfirst⟩ := h
  have hq' : q ∈ p :: sub p := List.mem_cons_of_mem p hq
  rcases List.mem_append.mp hin with hin | hin
  · exact hfirst q (hself hin) q (List.mem_append_left _ hq') rfl
  · rcases List.mem_cons.mp hin with rfl | hin
    · exact hp' hq
    · exact hlast q hq' q (hself hin) rfl

/-! ### A node unlinked -/

/-- The scaffolds once a node has left its holder's list. -/
def unlinked (f : ℕ → Scaffold) (holder a p : ℕ) : Scaffold :=
  if p = a then { f p with parent := none, prev := none, next := none }
  else
    { f p with
      next := if (f a).prev = some p then (f a).next else (f p).next
      prev := if (f a).next = some p then (f a).prev else (f p).prev
      first := if p = holder ∧ (f a).prev = none then (f a).next else (f p).first
      last := if p = holder ∧ (f a).next = none then (f a).prev else (f p).last }

lemma unlink_eq {s : State K} {a : ℕ} (hparent : (s.scaffolds a).parent = some holder)
    (hholder : holder ≠ a) (hnext : (s.scaffolds a).next ≠ some a) :
    s.unlink a = { s with scaffolds := unlinked s.scaffolds holder a } := by
  have hscaffolds : (s.unlink a).scaffolds = unlinked s.scaffolds holder a := by
    funext p
    rw [State.unlink, hparent]
    cases hp : (s.scaffolds a).prev <;> cases hn : (s.scaffolds a).next <;>
      simp only [State.setLink, Function.update_apply, unlinked, hp, hn] <;>
      apply Scaffold.ext <;>
      simp only [apply_ite Scaffold.parent, apply_ite Scaffold.next, apply_ite Scaffold.prev,
        apply_ite Scaffold.first, apply_ite Scaffold.last] <;>
      grind
  rw [← hscaffolds, State.unlink, hparent]
  cases (s.scaffolds a).prev <;> cases (s.scaffolds a).next <;> rfl

/-- A node that is unlinked leaves its holder's list, and no node gives another under it up. -/
lemma Holds.unlinked_spec {a : ℕ} (h : Holds f holder (l ++ a :: l')) :
    Holds (unlinked f holder a) holder (l ++ l') := by
  have hlast : a ∉ l' := (List.nodup_cons.mp (List.nodup_append.mp h.nodup).2.1).1
  have hfirst : a ∉ l := fun hin =>
    (List.nodup_append.mp h.nodup).2.2 a hin a List.mem_cons_self rfl
  have ha : a ∈ l ++ a :: l' := List.mem_append_right _ List.mem_cons_self
  have hnext := h.next_split
  have hprev := h.prev_split
  have hin : ∀ p ∈ l ++ l', p ∈ l ++ a :: l' ∧ p ≠ a := by
    intro p hp
    rw [List.mem_append] at hp ⊢
    refine ⟨hp.imp_right (List.mem_cons_of_mem a), ?_⟩
    rintro rfl
    exact hp.elim hfirst hlast
  have hholder : holder ≠ a := fun heq => h.apart (heq ▸ ha)
  refine ⟨?_, fun hp => h.apart (hin _ hp).1, fun p hp => ?_, fun p hp => ?_, fun p hp => ?_, ?_,
    ?_⟩
  · exact h.nodup.sublist (List.Sublist.append_left (List.sublist_cons_self a l') l)
  · rw [unlinked, if_neg (hin p hp).2]
    exact h.parent p (hin p hp).1
  · rw [unlinked, if_neg (hin p hp).2]
    dsimp only
    rw [hprev, hnext, h.next p (hin p hp).1, next_erase h.nodup hp]
  · rw [unlinked, if_neg (hin p hp).2]
    dsimp only
    rw [hprev, hnext, h.prev p (hin p hp).1, prior_erase h.nodup hp]
  · rw [unlinked, if_neg hholder]
    dsimp only
    rw [hprev, hnext, h.first, List.head?_append, List.head?_append]
    cases l with
    | nil => simp
    | cons b l => simp [List.getLast?_cons]
  · rw [unlinked, if_neg hholder]
    dsimp only
    rw [hprev, hnext, h.last, List.getLast?_append, List.getLast?_append, List.getLast?_cons]
    cases l' with
    | nil => simp
    | cons b l' => simp [List.getLast?_cons]

/-- Nothing else is written. -/
lemma unlinked_of_ne {a p : ℕ} (ha : p ≠ a) (hholder : p ≠ holder) (hprev : (f a).prev ≠ some p)
    (hnext : (f a).next ≠ some p) : unlinked f holder a p = f p := by
  rw [unlinked, if_neg ha, if_neg hprev, if_neg hnext, if_neg fun hp => hholder hp.1,
    if_neg fun hp => hholder hp.1]

lemma unlinked_ends {a p : ℕ} (hholder : p ≠ holder) :
    (unlinked f holder a p).first = (f p).first ∧ (unlinked f holder a p).last = (f p).last := by
  rw [unlinked]
  split
  next => exact ⟨rfl, rfl⟩
  next => exact ⟨if_neg fun hp => hholder hp.1, if_neg fun hp => hholder hp.1⟩

/-! ### The nodes between two taken -/

/-- The scaffolds once nodes up to one have a new parent. -/
def adopted (f : ℕ → Scaffold) (inlineNode : ℕ) (l : List ℕ) (p : ℕ) : Scaffold :=
  if p ∈ l then
    { f p with
      parent := some inlineNode
      next := if l.getLast? = some p then none else (f p).next }
  else if p = inlineNode then { f p with last := l.getLast?.or (f p).last }
  else f p

lemma adopt_eq {s : State K} {inlineNode stop fuel : ℕ} (hnodup : (l ++ [stop]).Nodup)
    (hinline : inlineNode ∉ l)
    (hnext : ∀ p ∈ l, (s.scaffolds p).next = Links.next (l ++ [stop]) p) (hfuel : l.length < fuel) :
    s.adopt inlineNode stop fuel (l ++ [stop]).head? =
      some { s with scaffolds := adopted s.scaffolds inlineNode l } := by
  induction l generalizing s fuel with
  | nil =>
    obtain ⟨fuel, rfl⟩ := Nat.exists_eq_add_one_of_ne_zero hfuel.ne'
    have hsame : adopted s.scaffolds inlineNode [] = s.scaffolds := by
      funext p
      rw [adopted, if_neg List.not_mem_nil]
      by_cases hp : p = inlineNode
      · rw [if_pos hp]
        rfl
      · rw [if_neg hp]
    rw [hsame, List.nil_append, List.head?_cons, State.adopt, if_pos rfl]
  | cons a l ih =>
    obtain ⟨fuel, rfl⟩ := Nat.exists_eq_add_one_of_ne_zero (Nat.ne_of_gt (Nat.zero_lt_of_lt hfuel))
    obtain ⟨hne, hinline'⟩ := not_or.mp (List.mem_cons.not.mp hinline)
    obtain ⟨ha, hrest⟩ := List.nodup_cons.mp hnodup
    have hstop : a ≠ stop := fun heq => ha (by simp [heq])
    have hal : a ∉ l := fun hin => ha (List.mem_append_left _ hin)
    have hafter : (s.scaffolds a).next = (l ++ [stop]).head? := by
      rw [hnext a List.mem_cons_self, List.cons_append, Links.next, if_pos rfl]
    have hon : ∀ p ∈ l, (s.scaffolds p).next = Links.next (l ++ [stop]) p := by
      intro p hp
      rw [hnext p (List.mem_cons_of_mem a hp), List.cons_append, Links.next,
        if_neg (ne_of_mem_of_not_mem hp hal).symm]
    have hturn : ∀ s' : State K, (∀ p ∈ l, s'.scaffolds p = s.scaffolds p) →
        s'.adopt inlineNode stop fuel (l ++ [stop]).head? =
          some { s' with scaffolds := adopted s'.scaffolds inlineNode l } := by
      intro s' hsame
      exact ih hrest hinline' (fun p hp => by rw [hsame p hp, hon p hp])
        (Nat.lt_of_succ_lt_succ hfuel)
    rw [List.cons_append, List.head?_cons, State.adopt, if_neg hstop, hafter]
    dsimp only
    by_cases hlast : (l ++ [stop]).head? = some stop
    · have hnil : l = [] := by
        cases l with
        | nil => rfl
        | cons b l =>
          rw [List.cons_append, List.head?_cons, Option.some_inj] at hlast
          exact absurd hrest (by simp [hlast])
      subst hnil
      rw [if_pos hlast, hturn _ (fun p hp => absurd hp List.not_mem_nil)]
      refine congrArg (fun g => some { s with scaffolds := g }) ?_
      funext p
      simp only [adopted, State.setLink, Function.update_apply, List.mem_singleton,
        List.not_mem_nil,
        if_false, List.getLast?_singleton, List.getLast?_nil, Option.none_or, Option.some_or]
      by_cases hp : p = a
      · subst hp
        rw [if_neg (Ne.symm hne)]
        simp [Ne.symm hne]
      · by_cases hp' : p = inlineNode
        · subst hp'
          simp [hne]
        · simp [hp, hp']
    · rw [if_neg hlast, hturn]
      · have hlast' : (a :: l).getLast? = l.getLast? := by
          cases l with
          | nil => exact absurd rfl hlast
          | cons b l => exact List.getLast?_cons_cons
        refine congrArg (fun g => some { s with scaffolds := g }) ?_
        funext p
        simp only [adopted, State.setLink, Function.update_apply, List.mem_cons, hlast']
        by_cases hp : p = a
        · subst hp
          have hself : l.getLast? ≠ some p := fun heq => hal (List.mem_of_getLast? heq)
          simp [hal, Ne.symm hne, hself]
        · simp [hp]
      · intro p hp
        exact Function.update_of_ne (ne_of_mem_of_not_mem hp hal) _ _

/-- The scaffolds once a new node has taken the place of the nodes between two, which it holds. -/
def between (f : ℕ → Scaffold) (inlineNode openerInl closerInl holder : ℕ) (l : List ℕ) (p : ℕ) :
    Scaffold :=
  if p = inlineNode then ⟨some holder, some openerInl, some closerInl, l.head?, l.getLast?⟩
  else
    { f p with
      parent := if p ∈ l then some inlineNode else (f p).parent
      next := if p = openerInl then some inlineNode
        else if l.getLast? = some p then none else (f p).next
      prev := if p = closerInl then some inlineNode
        else if l.head? = some p then none else (f p).prev }

section Between

variable {before after : List ℕ} {inlineNode openerInl closerInl : ℕ}

/-- The two runs and what stands between them, apart. -/
structure Apart (before l after : List ℕ) (openerInl closerInl holder inlineNode : ℕ) : Prop where
  opener : openerInl ∉ before ++ (l ++ closerInl :: after)
  closer : closerInl ∉ before ++ (openerInl :: (l ++ after))
  inline : inlineNode ∉ holder :: (before ++ openerInl :: (l ++ closerInl :: after))
  inner : ∀ p ∈ l, p ∉ before ++ after

lemma Apart.ne (h : Apart before l after openerInl closerInl holder inlineNode) :
    openerInl ≠ closerInl := by
  rintro rfl
  exact h.opener (by simp)

lemma Holds.apart_runs (h : Holds f holder (before ++ openerInl :: (l ++ closerInl :: after)))
    (hinline : inlineNode ∉ holder :: (before ++ openerInl :: (l ++ closerInl :: after))) :
    Apart before l after openerInl closerInl holder inlineNode := by
  have hnodup := h.nodup
  simp only [List.nodup_append, List.nodup_cons, List.mem_append, List.mem_cons] at hnodup
  refine ⟨?_, ?_, hinline, ?_⟩ <;> grind

lemma Holds.next_inner (h : Holds f holder (before ++ openerInl :: (l ++ closerInl :: after)))
    (hapart : Apart before l after openerInl closerInl holder inlineNode) {p : ℕ} (hp : p ∈ l) :
    (f p).next = Links.next (l ++ [closerInl]) p := by
  have hopener := hapart.opener
  have hinner := hapart.inner p hp
  simp only [List.mem_append, List.mem_cons, not_or] at hopener hinner
  have hp' : p ∉ before ++ [openerInl] := by
    simp [hinner.1, ne_of_mem_of_not_mem hp hopener.2.1]
  have heq : before ++ openerInl :: (l ++ closerInl :: after) =
      (before ++ [openerInl]) ++ (l ++ closerInl :: after) := by simp
  rw [h.next p (by simp [hp]), heq, next_append_of_notMem hp', next_append_left hp]

lemma Holds.prev_inner (h : Holds f holder (before ++ openerInl :: (l ++ closerInl :: after)))
    (hapart : Apart before l after openerInl closerInl holder inlineNode) {p : ℕ} (hp : p ∈ l) :
    (f p).prev = prior (openerInl :: l) p := by
  have hcloser := hapart.closer
  have hinner := hapart.inner p hp
  simp only [List.mem_append, List.mem_cons, not_or] at hcloser hinner
  have hp' : p ∉ closerInl :: after := by
    simp [hinner.2, ne_of_mem_of_not_mem hp hcloser.2.2.1]
  have heq : before ++ openerInl :: (l ++ closerInl :: after) =
      (before ++ openerInl :: l) ++ closerInl :: after := by simp
  rw [h.prev p (by simp [hp]), heq, prior_append_of_notMem hp', prior_append_right hp]

/-- A slot that is taken anew is under no holder of others. -/
lemma Holds.blank (h : Holds f holder l) (hinline : inlineNode ∉ holder :: l) :
    Holds (Function.update f inlineNode {}) holder l := by
  refine h.congr (fun p hp => ?_) ?_
  · have hne : p ≠ inlineNode := ne_of_mem_of_not_mem (List.mem_cons_of_mem _ hp) hinline
    rw [Function.update_of_ne hne]
    exact ⟨rfl, rfl, rfl⟩
  · have hne : holder ≠ inlineNode := ne_of_mem_of_not_mem List.mem_cons_self hinline
    rw [Function.update_of_ne hne]
    exact ⟨rfl, rfl⟩

lemma take_link_between {s : State K} {fuel : ℕ}
    (h : Holds s.scaffolds holder (before ++ openerInl :: (l ++ closerInl :: after)))
    (hinline : inlineNode ∉ holder :: (before ++ openerInl :: (l ++ closerInl :: after)))
    (hblank : s.scaffolds inlineNode = {}) (hfuel : l.length < fuel) :
    (s.takeBetween inlineNode openerInl closerInl fuel).map
        (·.linkBetween inlineNode openerInl closerInl holder) =
      some { s with
        scaffolds := between s.scaffolds inlineNode openerInl closerInl holder l } := by
  have hapart := h.apart_runs hinline
  obtain ⟨hopener, hcloser, -, -⟩ := id hapart
  simp only [List.mem_append, List.mem_cons, not_or] at hopener hcloser hinline
  have hnext := h.next_split
  have hon : ∀ p ∈ l, (s.scaffolds p).next = Links.next (l ++ [closerInl]) p :=
    fun p hp => h.next_inner hapart hp
  cases l with
  | nil =>
    rw [State.takeBetween, hnext, List.nil_append, List.head?_cons]
    dsimp only
    rw [if_pos rfl, Option.map_some]
    refine congrArg (fun g => some { s with scaffolds := g }) ?_
    funext p
    simp only [between, State.setLink, Function.update_apply]
    apply Scaffold.ext <;>
      simp only [apply_ite Scaffold.parent, apply_ite Scaffold.next, apply_ite Scaffold.prev,
        apply_ite Scaffold.first, apply_ite Scaffold.last] <;>
      grind
  | cons a l =>
    have hne : a ≠ closerInl := fun heq => hcloser.2.2.1 (heq ▸ List.mem_cons_self)
    rw [State.takeBetween, hnext, List.cons_append, List.head?_cons]
    dsimp only
    rw [if_neg hne]
    have hhead : some a = (a :: l ++ [closerInl]).head? := rfl
    rw [hhead, adopt_eq, Option.map_some]
    · refine congrArg (fun g => some { s with scaffolds := g }) ?_
      funext p
      simp only [between, adopted, State.setLink, Function.update_apply]
      apply Scaffold.ext <;>
        simp only [apply_ite Scaffold.parent, apply_ite Scaffold.next, apply_ite Scaffold.prev,
          apply_ite Scaffold.first, apply_ite Scaffold.last]
      · grind
      · grind
      · grind
      · grind
      · grind
    · have hnodup := (List.nodup_cons.mp (List.nodup_append.mp h.nodup).2.1).2
      refine hnodup.sublist (List.Sublist.append_left ?_ (a :: l))
      exact List.Sublist.cons_cons closerInl (List.nil_sublist after)
    · exact hinline.2.2.2.1
    · intro p hp
      have hself : p ≠ inlineNode := ne_of_mem_of_not_mem hp hinline.2.2.2.1
      rw [← hon p hp]
      simp only [State.setLink, Function.update_apply]
      grind
    · exact hfuel

/-- The new node stands between the two runs, in the place of what stood there. -/
lemma Holds.between_outer
    (h : Holds f holder (before ++ openerInl :: (l ++ closerInl :: after)))
    (hapart : Apart before l after openerInl closerInl holder inlineNode) :
    Holds (between f inlineNode openerInl closerInl holder l) holder
      (before ++ openerInl :: inlineNode :: closerInl :: after) := by
  obtain ⟨hopener, hcloser, hinline, hinner⟩ := hapart
  have hnodup := h.nodup
  have hholder := h.apart
  have hinline' : inlineNode ∉ before ++ openerInl :: (l ++ closerInl :: after) :=
    fun hin => hinline (List.mem_cons_of_mem _ hin)
  have hout : ∀ p ∈ before ++ openerInl :: inlineNode :: closerInl :: after, p ∉ l := by
    simp only [List.mem_append, List.mem_cons, not_or] at hopener hcloser hinline hinner ⊢
    grind
  have hin : ∀ p ∈ before ++ openerInl :: inlineNode :: closerInl :: after, p ≠ inlineNode →
      p ∈ before ++ openerInl :: (l ++ closerInl :: after) := by
    simp only [List.mem_append, List.mem_cons]
    grind
  have hlast : ∀ p, p ∉ l → l.getLast? ≠ some p := fun p hp heq => hp (List.mem_of_getLast? heq)
  have hhead : ∀ p, p ∉ l → l.head? ≠ some p := fun p hp heq => hp (List.mem_of_mem_head? heq)
  refine ⟨?_, ?_, fun p hp => ?_, fun p hp => ?_, fun p hp => ?_, ?_, ?_⟩
  · simp only [List.nodup_append, List.nodup_cons, List.mem_append, List.mem_cons]
      at hnodup hinline ⊢
    grind
  · simp only [List.mem_append, List.mem_cons] at hholder hinline ⊢
    grind
  · rw [between]
    by_cases hp' : p = inlineNode
    · rw [if_pos hp']
    · rw [if_neg hp']
      dsimp only
      rw [if_neg (hout p hp), h.parent p (hin p hp hp')]
  · rw [next_between hnodup hinline' hp, between]
    by_cases hp' : p = inlineNode
    · have hne : p ≠ openerInl := by
        rintro rfl
        exact hinline' (by simp [hp'])
      rw [if_pos hp', if_neg hne, if_pos hp']
    · rw [if_neg hp']
      dsimp only
      rw [if_neg (hlast p (hout p hp)), if_neg hp', h.next p (hin p hp hp')]
  · rw [prior_between hnodup hinline' hp, between]
    by_cases hp' : p = inlineNode
    · have hne : p ≠ closerInl := by
        rintro rfl
        exact hinline' (by simp [hp'])
      rw [if_pos hp', if_neg hne, if_pos hp']
    · rw [if_neg hp']
      dsimp only
      rw [if_neg (hhead p (hout p hp)), if_neg hp', h.prev p (hin p hp hp')]
  · have hne : holder ≠ inlineNode := fun heq => hinline (by simp [heq])
    rw [between, if_neg hne]
    dsimp only
    rw [h.first, List.head?_append, List.head?_append]
    rfl
  · have hne : holder ≠ inlineNode := fun heq => hinline (by simp [heq])
    rw [between, if_neg hne]
    dsimp only
    rw [h.last]
    simp [List.getLast?_append, List.getLast?_cons]

/-- The new node holds what stood between the two runs. -/
lemma Holds.between_inner
    (h : Holds f holder (before ++ openerInl :: (l ++ closerInl :: after)))
    (hapart : Apart before l after openerInl closerInl holder inlineNode) :
    Holds (between f inlineNode openerInl closerInl holder l) inlineNode l := by
  have hinline := hapart.inline
  have hopener := hapart.opener
  have hcloser := hapart.closer
  have hnodup := h.nodup
  simp only [List.mem_append, List.mem_cons, not_or] at hinline hopener hcloser
  simp only [List.nodup_append, List.nodup_cons, List.mem_append, List.mem_cons] at hnodup
  have hself : ∀ p ∈ l, p ≠ inlineNode ∧ p ≠ openerInl ∧ p ≠ closerInl := by
    intro p hp
    exact ⟨ne_of_mem_of_not_mem hp hinline.2.2.2.1, ne_of_mem_of_not_mem hp hopener.2.1,
      ne_of_mem_of_not_mem hp hcloser.2.2.1⟩
  have hend : (l ++ [closerInl]).Nodup := by
    simp only [List.nodup_append, List.mem_singleton]
    grind
  have hstart : ([] ++ openerInl :: l).Nodup := by
    simp only [List.nil_append, List.nodup_cons]
    grind
  refine ⟨by grind, hinline.2.2.2.1, fun p hp => ?_, fun p hp => ?_, fun p hp => ?_, ?_, ?_⟩
  · rw [between, if_neg (hself p hp).1]
    exact if_pos hp
  · rw [between, if_neg (hself p hp).1]
    dsimp only
    have herase := next_erase hend (List.mem_append_left [] hp)
    rw [List.append_nil] at herase
    rw [if_neg (hself p hp).2.1, h.next_inner hapart hp, herase]
    rfl
  · rw [between, if_neg (hself p hp).1]
    dsimp only
    rw [if_neg (hself p hp).2.2, h.prev_inner hapart hp]
    exact (prior_erase hstart (by simp [hp])).symm
  · rw [between, if_pos rfl]
  · rw [between, if_pos rfl]

lemma between_of_ne {p : ℕ} (hinline : p ≠ inlineNode) (hopener : p ≠ openerInl)
    (hcloser : p ≠ closerInl) (hl : p ∉ l) :
    between f inlineNode openerInl closerInl holder l p = f p := by
  have hlast : l.getLast? ≠ some p := fun heq => hl (List.mem_of_getLast? heq)
  have hhead : l.head? ≠ some p := fun heq => hl (List.mem_of_mem_head? heq)
  rw [between, if_neg hinline, if_neg hl, if_neg hopener, if_neg hcloser, if_neg hlast,
    if_neg hhead]

lemma between_ends {p : ℕ} (hinline : p ≠ inlineNode) :
    (between f inlineNode openerInl closerInl holder l p).first = (f p).first ∧
      (between f inlineNode openerInl closerInl holder l p).last = (f p).last := by
  rw [between, if_neg hinline]
  exact ⟨rfl, rfl⟩

end Between

end MarkdownCore.Delimiter
