import MarkdownCore.Delimiter.Siblings
import MarkdownCore.Delimiter.Entries

/-!
# A delimited inline inserted

The signs that a pair uses go from the two runs, the new inline takes what stood between them, and a
run that nothing is left of leaves its list and the stack. Everything moves once: the leaves under
the holder, in order, are those before, and the places of the leftovers and of the inline touch.
-/

namespace MarkdownCore.Delimiter

open Fields (Place)
open Links

variable {K : Type} {s : State K} {stack pool before l after : List ℕ}
  {holder openerInl closerInl inlineNode : ℕ}

/-- A text run: a literal of one sign, in a place as long. -/
structure Run (s : State K) (p : ℕ) (node : Node K) (sign : UInt8) (width : ℕ) : Prop where
  stored : s.nodes p = some node
  literal : node.literal = some (List.replicate width sign)
  place : node.place.stop = node.place.start + width
  childless : (s.scaffolds p).first = none

/-- The literals of the nodes listed, each with its node. -/
def leaves (s : State K) (ids : List ℕ) : List (ℕ × List UInt8) :=
  ids.filterMap fun p => ((s.nodes p).bind (·.literal)).map (p, ·)

/-- A leaf once the signs used are cut from the two runs, which go when they are empty. -/
def cut (openerInl closerInl useDelims : ℕ) (leaf : ℕ × List UInt8) : Option (ℕ × List UInt8) :=
  if leaf.1 = openerInl then
    if leaf.2.length = useDelims then none
    else some (leaf.1, leaf.2.take (leaf.2.length - useDelims))
  else if leaf.1 = closerInl then
    if leaf.2.length = useDelims then none else some (leaf.1, leaf.2.drop useDelims)
  else some leaf

/-! ### What is written -/

/-- The nodes before the empty runs go. -/
def placed (nodes : ℕ → Option (Node K)) (inlineNode openerInl closerInl : ℕ)
    (made opener closer : Node K) (openerNum closerNum useDelims p : ℕ) : Option (Node K) :=
  if p = inlineNode then
    some { made with
      place := ⟨opener.place.start + openerNum, closer.place.stop - closerNum⟩ }
  else if p = openerInl then
    some { opener with
      literal := opener.literal.map (·.take openerNum)
      place := if openerNum > 0 then ⟨opener.place.start, opener.place.start + openerNum⟩
        else opener.place }
  else if p = closerInl then
    some { closer with
      literal := closer.literal.map (·.take closerNum)
      offset := if closerNum > 0 then closer.offset + useDelims else closer.offset
      place := if closerNum > 0 then ⟨closer.place.stop - closerNum, closer.place.stop⟩
        else closer.place }
  else nodes p

/-- The nodes once the signs used are cut from the literals. -/
def cutNodes (nodes : ℕ → Option (Node K)) (inlineNode openerInl closerInl : ℕ)
    (made opener closer : Node K) (openerNum closerNum p : ℕ) : Option (Node K) :=
  if p = closerInl then some { closer with literal := closer.literal.map (·.take closerNum) }
  else if p = openerInl then some { opener with literal := opener.literal.map (·.take openerNum) }
  else if p = inlineNode then some made
  else nodes p

lemma cut_eq {made opener closer : Node K} {openerNum closerNum : ℕ} {f : ℕ → Scaffold}
    (hopener : s.nodes openerInl = some opener) (hcloser : s.nodes closerInl = some closer)
    (hne : closerInl ≠ openerInl) (hne' : inlineNode ≠ openerInl) (hne'' : inlineNode ≠ closerInl) :
    (({ s with scaffolds := f, nodes := Function.update s.nodes inlineNode (some made) } :
      State K).setNode openerInl fun n =>
        { n with literal := n.literal.map (·.take openerNum) }).setNode closerInl (fun n =>
        { n with literal := n.literal.map (·.take closerNum) }) =
      { s with
        scaffolds := f
        nodes := cutNodes s.nodes inlineNode openerInl closerInl made opener closer openerNum
          closerNum } := by
  refine congrArg (fun g => ({ s with scaffolds := f, nodes := g } : State K)) ?_
  funext p
  simp only [State.setNode, Function.update_apply, cutNodes]
  grind

lemma placeBetween_eq {nodes : ℕ → Option (Node K)} {made opener closer : Node K}
    {openerNum closerNum useDelims : ℕ} {t : State K}
    (ht : t.nodes =
      cutNodes nodes inlineNode openerInl closerInl made opener closer openerNum closerNum)
    (hne : openerInl ≠ closerInl) (hopener : inlineNode ≠ openerInl)
    (hcloser : inlineNode ≠ closerInl) :
    t.placeBetween inlineNode openerInl closerInl opener.place closer.place openerNum closerNum
        useDelims =
      { t with
        nodes := placed nodes inlineNode openerInl closerInl made opener closer openerNum closerNum
          useDelims } := by
  have hnodes : (t.placeBetween inlineNode openerInl closerInl opener.place closer.place openerNum
      closerNum useDelims).nodes = placed nodes inlineNode openerInl closerInl made opener closer
        openerNum closerNum useDelims := by
    funext p
    rw [State.placeBetween]
    by_cases ho : openerNum > 0 <;> by_cases hc : closerNum > 0 <;>
      simp only [State.setNode, ht, ho, hc, if_true, if_false, Function.update_apply, placed,
        cutNodes] <;>
      grind
  rw [← hnodes, State.placeBetween]
  by_cases ho : openerNum > 0 <;> by_cases hc : closerNum > 0 <;> simp only [ho, hc] <;> rfl

/-! ### The runs settled -/

/-- The scaffolds once a run has settled. -/
def settled (f : ℕ → Scaffold) (holder p num : ℕ) : ℕ → Scaffold :=
  if num = 0 then unlinked f holder p else f

/-- Whether a run leaves the stack. -/
def Leaves (num minimumWidth : ℕ) : Prop := num = 0 ∨ num < minimumWidth

instance (num minimumWidth : ℕ) : Decidable (Leaves num minimumWidth) :=
  inferInstanceAs (Decidable (num = 0 ∨ num < minimumWidth))

section Settle

variable {entry p num minimumWidth : ℕ}

lemma Holds.unlink_eq (h : Holds s.scaffolds holder (before ++ p :: after)) :
    s.unlink p = { s with scaffolds := unlinked s.scaffolds holder p } := by
  have hp : p ∈ before ++ p :: after := by simp
  have hnodup := h.nodup
  refine Delimiter.unlink_eq (h.parent p hp) (fun heq => h.apart (heq ▸ hp)) ?_
  rw [h.next_split]
  intro heq
  exact (List.nodup_cons.mp (List.nodup_append.mp hnodup).2.1).1 (List.mem_of_mem_head? heq)

lemma settleRun_scaffolds (h : Holds s.scaffolds holder (before ++ p :: after)) :
    (s.settleRun entry p num minimumWidth).scaffolds = settled s.scaffolds holder p num := by
  rw [State.settleRun, settled, State.releaseNode, h.unlink_eq]
  by_cases hzero : num = 0
  · rw [if_pos hzero, if_pos hzero, removeDelimiter_scaffolds]
  · rw [if_neg hzero, if_neg hzero]
    split
    next => exact removeDelimiter_scaffolds s entry
    next => rfl

lemma settleRun_nodes (h : Holds s.scaffolds holder (before ++ p :: after)) :
    (s.settleRun entry p num minimumWidth).nodes =
      if num = 0 then Function.update s.nodes p none else s.nodes := by
  rw [State.settleRun, State.releaseNode, h.unlink_eq]
  by_cases hzero : num = 0
  · rw [if_pos hzero, if_pos hzero, removeDelimiter_nodes]
  · rw [if_neg hzero, if_neg hzero]
    split
    next => exact removeDelimiter_nodes s entry
    next => rfl

lemma settleRun_error (h : Holds s.scaffolds holder (before ++ p :: after)) :
    (s.settleRun entry p num minimumWidth).error = s.error := by
  rw [State.settleRun, State.releaseNode, h.unlink_eq]
  split
  next => exact removeDelimiter_error _ entry
  next =>
    split
    next => exact removeDelimiter_error s entry
    next => rfl

/-- A run leaves the stack, or stays where it is; its entry, off the stack, is the pool's first. -/
lemma settleRun_stacked (h : Holds s.scaffolds holder (before ++ p :: after))
    (hstack : Stacked s stack pool) (hentry : entry ∈ stack) :
    Stacked (s.settleRun entry p num minimumWidth)
        (if Leaves num minimumWidth then stack.erase entry else stack)
        (if Leaves num minimumWidth then entry :: pool else pool) ∧
      ∀ e, ((s.settleRun entry p num minimumWidth).entries e).bare = (s.entries e).bare := by
  rw [State.settleRun, State.releaseNode, h.unlink_eq]
  by_cases hzero : num = 0
  · have hgo : Leaves num minimumWidth := Or.inl hzero
    rw [if_pos hzero, if_pos hgo, if_pos hgo]
    have hwith := hstack.with_nodes (unlinked s.scaffolds holder p)
      (Function.update s.nodes p none)
    exact ⟨hwith.erase hentry, hwith.bare_erase hentry⟩
  · rw [if_neg hzero]
    by_cases hless : num < minimumWidth
    · have hgo : Leaves num minimumWidth := Or.inr hless
      rw [if_pos hless, if_pos hgo, if_pos hgo]
      exact ⟨hstack.erase hentry, hstack.bare_erase hentry⟩
    · have hstay : ¬Leaves num minimumWidth := not_or.mpr ⟨hzero, hless⟩
      rw [if_neg hless, if_neg hstay, if_neg hstay]
      exact ⟨hstack, fun e => rfl⟩

/-- What is left of a run in its list. -/
def leftover (num p : ℕ) : List ℕ := if num = 0 then [] else [p]

lemma eq_of_mem_leftover {q : ℕ} (h : q ∈ leftover num p) : q = p := by
  rw [leftover] at h
  split at h
  next => cases h
  next => exact List.mem_singleton.mp h

/-- What settles leaves the list when nothing is left of it. -/
lemma Holds.settled_spec {f : ℕ → Scaffold} (h : Holds f holder (before ++ p :: after))
    (num : ℕ) :
    Holds (settled f holder p num) holder
      (before ++ (leftover num p ++ after)) := by
  rw [settled, leftover]
  by_cases hzero : num = 0
  · rw [if_pos hzero, if_pos hzero]
    exact h.unlinked_spec
  · rw [if_neg hzero, if_neg hzero]
    exact h

/-- A node outside the list stays as it is, and no other holder gives up a node. -/
lemma Holds.settled_of_notMem {f : ℕ → Scaffold} {q : ℕ}
    (h : Holds f holder (before ++ p :: after)) (hq : q ∉ holder :: (before ++ p :: after)) :
    settled f holder p num q = f q := by
  rw [settled]
  split
  next =>
    refine unlinked_of_ne ?_ ?_ ?_ ?_
    · rintro rfl
      exact hq (by simp)
    · rintro rfl
      exact hq List.mem_cons_self
    · rw [h.prev_split]
      intro heq
      exact hq (by simp [List.mem_of_getLast? heq])
    · rw [h.next_split]
      intro heq
      exact hq (by simp [List.mem_of_mem_head? heq])
  next => rfl

lemma settled_ends {f : ℕ → Scaffold} {q : ℕ} (hq : q ≠ holder) :
    (settled f holder p num q).first = (f q).first ∧
      (settled f holder p num q).last = (f q).last := by
  rw [settled]
  split
  next => exact unlinked_ends hq
  next => exact ⟨rfl, rfl⟩

lemma Holds.settled_other {f : ℕ → Scaffold} {q : ℕ} {m : List ℕ}
    (h : Holds f holder (before ++ p :: after)) (num : ℕ) (hm : Holds f q m) (hq : q ≠ holder)
    (hapart : ∀ x ∈ m, x ∉ holder :: (before ++ p :: after)) :
    Holds (settled f holder p num) q m := by
  refine hm.congr (fun x hx => ?_) (settled_ends hq)
  rw [h.settled_of_notMem (hapart x hx)]
  exact ⟨rfl, rfl, rfl⟩

end Settle

/-! ### The insertion -/

section Insertion

variable {canContain : Node K → K → Bool} {specOf : Rule → RuleSpec K} {fuel : ℕ}
  {opener closer useDelims openerNum closerNum : ℕ} {kind : K}
  {openerNode closerNode holderNode : Node K}
  {openerLiteral closerLiteral : List UInt8}

/-- The state before the two runs settle. -/
def State.inserted (s : State K) (inlineNode openerInl closerInl holder : ℕ) (l : List ℕ)
    (made openerNode closerNode : Node K) (openerNum closerNum useDelims : ℕ) : State K :=
  { s with
    scaffolds := between (Function.update s.scaffolds inlineNode {}) inlineNode openerInl closerInl
      holder l
    nodes := placed s.nodes inlineNode openerInl closerInl made openerNode closerNode openerNum
      closerNum useDelims }

lemma insert_eq (specOf : Rule → RuleSpec K) (useDelims : ℕ)
    (h : Holds s.scaffolds holder (before ++ openerInl :: (l ++ closerInl :: after)))
    (hinline : inlineNode ∉ holder :: (before ++ openerInl :: (l ++ closerInl :: after)))
    (hopener : (s.entries opener).node = some openerInl)
    (hcloser : (s.entries closer).node = some closerInl)
    (hopenerNode : s.nodes openerInl = some openerNode)
    (hcloserNode : s.nodes closerInl = some closerNode)
    (hholder : s.nodes holder = some holderNode)
    (hopenerLiteral : openerNode.literal = some openerLiteral)
    (hcloserLiteral : closerNode.literal = some closerLiteral)
    (hcan : canContain holderNode kind = true) (hfuel : l.length < fuel) :
    let minimumWidth := (specOf (s.entries closer).rule).minimumWidth
    let openerNum := openerLiteral.length - useDelims
    let closerNum := closerLiteral.length - useDelims
    let t := (s.inserted inlineNode openerInl closerInl holder l
      ⟨kind, (s.entries closer).owner, ⟨0, 0⟩, 0, none⟩ openerNode closerNode openerNum closerNum
        useDelims).settleRun opener openerInl openerNum minimumWidth
    s.insertDelimitedInline canContain specOf (some inlineNode) fuel opener closer useDelims kind =
      some (t.settleRun closer closerInl closerNum minimumWidth,
        if Leaves closerNum minimumWidth then (t.entries closer).next else some closer) := by
  have hparent := h.parent openerInl (by simp)
  have hapart := h.apart_runs hinline
  have hin := hapart.inline
  have hrun := hapart.opener
  simp only [List.mem_append, List.mem_cons, not_or] at hin hrun
  have hnew := h.blank hinline
  intro minimumWidth openerNum closerNum t
  rw [State.insertDelimitedInline]
  simp only [hopener, hcloser, hopenerNode, hcloserNode, hopenerLiteral, hcloserLiteral, hparent,
    hholder, hcan, Option.bind_eq_bind, Option.bind_some, Bool.true_eq_false, if_false]
  rw [cut_eq hopenerNode hcloserNode (Ne.symm hapart.ne) hin.2.2.1 hin.2.2.2.2.1]
  obtain ⟨t', htake, hlink⟩ := Option.map_eq_some_iff.mp
    (take_link_between (s := { s with
      scaffolds := Function.update s.scaffolds inlineNode {}
      nodes := cutNodes s.nodes inlineNode openerInl closerInl
        ⟨kind, (s.entries closer).owner, ⟨0, 0⟩, 0, none⟩ openerNode closerNode openerNum
        closerNum }) hnew hinline (Function.update_self _ _ _) hfuel)
  rw [htake, Option.bind_some, hlink,
    placeBetween_eq rfl hapart.ne hin.2.2.1 hin.2.2.2.2.1]
  rfl

/-- The scaffolds once the inline is inserted and both runs have settled. -/
def insertedScaffolds (f : ℕ → Scaffold) (inlineNode openerInl closerInl holder : ℕ) (l : List ℕ)
    (openerNum closerNum : ℕ) : ℕ → Scaffold :=
  settled (settled (between (Function.update f inlineNode {}) inlineNode openerInl closerInl holder
    l) holder openerInl openerNum) holder closerInl closerNum

/-- The scaffolds move once: the inline stands between what is left of the two runs and holds what
stood there, and nothing else is written. -/
structure Moved (f f' : ℕ → Scaffold) (holder inlineNode : ℕ) (old new l : List ℕ) : Prop where
  outer : Holds f' holder new
  inner : Holds f' inlineNode l
  ends : ∀ p, p ≠ holder → p ≠ inlineNode →
    (f' p).first = (f p).first ∧ (f' p).last = (f p).last
  rest : ∀ p, p ∉ inlineNode :: holder :: old → f' p = f p

lemma moved_inserted {f : ℕ → Scaffold} (openerNum closerNum : ℕ)
    (h : Holds f holder (before ++ openerInl :: (l ++ closerInl :: after)))
    (hinline : inlineNode ∉ holder :: (before ++ openerInl :: (l ++ closerInl :: after))) :
    Moved f (insertedScaffolds f inlineNode openerInl closerInl holder l openerNum closerNum) holder
      inlineNode (before ++ openerInl :: (l ++ closerInl :: after))
      (before ++ (leftover openerNum openerInl ++
        inlineNode :: (leftover closerNum closerInl ++ after))) l := by
  have hapart := h.apart_runs hinline
  have hin := hapart.inline
  simp only [List.mem_append, List.mem_cons, not_or] at hin
  have hnew := h.blank hinline
  have hnodup := h.nodup
  simp only [List.nodup_append, List.nodup_cons, List.mem_append, List.mem_cons] at hnodup
  have hholder := h.apart
  simp only [List.mem_append, List.mem_cons, not_or] at hholder
  have houter := hnew.between_outer hapart
  have hinner := hnew.between_inner hapart
  have houter' := houter.settled_spec openerNum
  have hne : inlineNode ≠ holder := hin.1
  have hinner' := houter.settled_other openerNum hinner hne (by
    simp only [List.mem_append, List.mem_cons]
    grind)
  have heq : before ++ (leftover openerNum openerInl ++ inlineNode :: closerInl :: after) =
      (before ++ (leftover openerNum openerInl ++ [inlineNode])) ++ closerInl :: after := by simp
  rw [heq] at houter'
  have hsub : ∀ p ∈ leftover openerNum openerInl, p = openerInl := fun p hp =>
    eq_of_mem_leftover hp
  have hmem : ∀ p, p ∉ inlineNode :: holder :: (before ++ openerInl :: (l ++ closerInl :: after)) →
      p ∉ holder :: ((before ++ (leftover openerNum openerInl ++ [inlineNode])) ++
        closerInl :: after) := by
    intro p hp
    simp only [List.mem_append, List.mem_cons, List.not_mem_nil, or_false] at hp ⊢
    grind
  refine ⟨?_, ?_, fun p hp hp' => ?_, fun p hp => ?_⟩
  · have hfinal := houter'.settled_spec closerNum
    simpa [insertedScaffolds] using hfinal
  · refine houter'.settled_other closerNum hinner' hne ?_
    simp only [List.mem_append, List.mem_cons, List.not_mem_nil, or_false]
    grind
  · rw [insertedScaffolds, (settled_ends hp).1, (settled_ends hp).2, (settled_ends hp).1,
      (settled_ends hp).2, (between_ends hp').1, (between_ends hp').2, Function.update_of_ne hp']
    exact ⟨rfl, rfl⟩
  · rw [insertedScaffolds, houter'.settled_of_notMem (hmem p hp), houter.settled_of_notMem ?_,
      between_of_ne ?_ ?_ ?_ ?_, Function.update_of_ne ?_]
    all_goals
      simp only [List.mem_append, List.mem_cons] at hp ⊢
      grind

/-! ### The forest -/

/-- The nodes under each node once the inline holds what stood between the runs. -/
def regrouped (sub : ℕ → List ℕ) (inlineNode : ℕ) (l : List ℕ) (p : ℕ) : List ℕ :=
  if p = inlineNode then l.flatMap fun q => q :: sub q else sub p

lemma forest_inserted {f f' : ℕ → Scaffold} {sub : ℕ → List ℕ} {old new : List ℕ}
    (hmoved : Moved f f' holder inlineNode old new l)
    (hsub : ∀ p ∈ old, Forest f p (sub p)) (hl : ∀ p ∈ l, p ∈ old)
    (hnew : ∀ p ∈ new, p ≠ inlineNode → p ∈ old)
    (hids : (holder :: old.flatMap fun p => p :: sub p).Nodup)
    (hinline : inlineNode ∉ holder :: old.flatMap fun p => p :: sub p) :
    Forest f' holder (new.flatMap fun p => p :: regrouped sub inlineNode l p) := by
  have hin : ∀ p ∈ old, p ∈ old.flatMap fun p => p :: sub p :=
    fun p hp => List.mem_flatMap.mpr ⟨p, hp, List.mem_cons_self⟩
  obtain ⟨hholder, hnodup⟩ := List.nodup_cons.mp hids
  have hkept : ∀ p ∈ old, Forest f' p (sub p) := by
    intro p hp
    have hne : p ≠ holder := ne_of_mem_of_not_mem (hin p hp) hholder
    have hne' : p ≠ inlineNode :=
      ne_of_mem_of_not_mem (List.mem_cons_of_mem _ (hin p hp)) hinline
    refine (hsub p hp).congr (fun q hq => hmoved.rest q ?_) (hmoved.ends p hne hne')
    have hqin : q ∈ old.flatMap fun p => p :: sub p :=
      List.mem_flatMap.mpr ⟨p, hp, List.mem_cons_of_mem _ hq⟩
    rw [List.mem_cons, List.mem_cons, not_or, not_or]
    refine ⟨ne_of_mem_of_not_mem (List.mem_cons_of_mem _ hqin) hinline,
      ne_of_mem_of_not_mem hqin hholder, fun hold => ?_⟩
    -- Among the nodes listed, one under another of the list is none of the list's own.
    exact notMem_of_nodup_flatMap hnodup hp hq hold
  refine .node _ hmoved.outer fun p hp => ?_
  rw [regrouped]
  by_cases heq : p = inlineNode
  · rw [if_pos heq, heq]
    exact .node sub hmoved.inner fun q hq => hkept q (hl q hq)
  · rw [if_neg heq]
    exact hkept p (hnew p hp heq)

/-! ### The leaves -/

@[simp] lemma leaves_nil (s : State K) : leaves s [] = [] := rfl

lemma leaves_append (s : State K) (ids ids' : List ℕ) :
    leaves s (ids ++ ids') = leaves s ids ++ leaves s ids' := List.filterMap_append

lemma leaves_cons (s : State K) (p : ℕ) (ids : List ℕ) :
    leaves s (p :: ids) = leaves s [p] ++ leaves s ids := leaves_append s [p] ids

/-- Nodes other than the two runs keep their leaves. -/
lemma leaves_kept {s' : State K} {ids : List ℕ}
    (h : ∀ p ∈ ids, s'.nodes p = s.nodes p ∧ p ≠ openerInl ∧ p ≠ closerInl) :
    leaves s' ids = (leaves s ids).filterMap (cut openerInl closerInl useDelims) := by
  induction ids with
  | nil => rfl
  | cons p ids ih =>
    obtain ⟨hsame, hopener, hcloser⟩ := h p List.mem_cons_self
    rw [leaves_cons s', leaves_cons s, List.filterMap_append,
      ih fun q hq => h q (List.mem_cons_of_mem p hq)]
    refine congrArg (· ++ _) ?_
    rw [leaves, leaves, List.filterMap_cons, List.filterMap_cons, hsame]
    cases (s.nodes p).bind (·.literal) with
    | none => rfl
    | some literal => simp [cut, hopener, hcloser]

/-- What is left of a run is its literal without the signs used. -/
lemma leaves_run {s' : State K} {p width num : ℕ} {sign : UInt8} {node : Node K}
    (hrun : Run s p node sign width) (hp : p = openerInl ∨ p = closerInl)
    (hused : useDelims ≤ width) (hnum : num = width - useDelims)
    (hnode : num ≠ 0 → ∃ node', s'.nodes p = some node' ∧
      node'.literal = node.literal.map (·.take num)) :
    leaves s' (leftover num p) =
      (leaves s [p]).filterMap (cut openerInl closerInl useDelims) := by
  have hleaf : leaves s [p] = [(p, List.replicate width sign)] := by
    simp [leaves, hrun.stored, hrun.literal]
  have hcut : cut openerInl closerInl useDelims (p, List.replicate width sign) =
      if num = 0 then none else some (p, List.replicate num sign) := by
    have hzero : width = useDelims ↔ num = 0 := by omega
    have htake : (List.replicate width sign).take (width - useDelims) =
        List.replicate num sign := by simp [hnum]
    have hdrop : (List.replicate width sign).drop useDelims = List.replicate num sign := by
      simp [hnum]
    rw [cut]
    simp only [List.length_replicate, hzero, htake, hdrop]
    by_cases ho : p = openerInl
    · rw [if_pos ho]
    · rw [if_neg ho, if_pos (hp.resolve_left ho)]
  rw [hleaf, List.filterMap_cons, List.filterMap_nil, hcut, leftover]
  by_cases hzero : num = 0
  · rw [if_pos hzero, if_pos hzero]
    rfl
  · rw [if_neg hzero, if_neg hzero]
    have htake : (List.replicate width sign).take num = List.replicate num sign := by
      simp [hnum]
    obtain ⟨node', hstored, hliteral⟩ := hnode hzero
    simp [leaves, hstored, hliteral, hrun.literal, htake]

lemma regrouped_flatMap {sub : ℕ → List ℕ} {m : List ℕ} (h : inlineNode ∉ m) :
    (m.flatMap fun p => p :: regrouped sub inlineNode l p) = m.flatMap fun p => p :: sub p := by
  refine List.flatMap_congr fun p hp => ?_
  rw [regrouped, if_neg (ne_of_mem_of_not_mem hp h)]

lemma leftover_flatMap {sub : ℕ → List ℕ} {num p : ℕ} (hp : p ≠ inlineNode) (hsub : sub p = []) :
    ((leftover num p).flatMap fun p => p :: regrouped sub inlineNode l p) = leftover num p := by
  rw [leftover]
  split
  next => rfl
  next => simp [regrouped, hp, hsub]

/-- The leaves, in order, are those before, and each run's is cut. -/
lemma leaves_inserted {s' : State K} {sub : ℕ → List ℕ} {made : Node K}
    (hinline : inlineNode ∉ holder :: (before ++ openerInl :: (l ++ closerInl :: after)))
    (hids : (before ++ openerInl :: (l ++ closerInl :: after)).flatMap (fun p => p :: sub p)
      |>.Nodup)
    (hopener : sub openerInl = [] ∧ leaves s' (leftover openerNum openerInl) =
      (leaves s [openerInl]).filterMap (cut openerInl closerInl useDelims))
    (hcloser : sub closerInl = [] ∧ leaves s' (leftover closerNum closerInl) =
      (leaves s [closerInl]).filterMap (cut openerInl closerInl useDelims))
    (hmade : s'.nodes inlineNode = some made) (hnone : made.literal = none)
    (hrest : ∀ p, p ≠ inlineNode → p ≠ openerInl → p ≠ closerInl → s'.nodes p = s.nodes p)
    (hout : inlineNode ∉
      (before ++ openerInl :: (l ++ closerInl :: after)).flatMap fun p => p :: sub p) :
    leaves s' ((before ++ (leftover openerNum openerInl ++
        inlineNode :: (leftover closerNum closerInl ++ after))).flatMap
          fun p => p :: regrouped sub inlineNode l p) =
      (leaves s ((before ++ openerInl :: (l ++ closerInl :: after)).flatMap
        fun p => p :: sub p)).filterMap (cut openerInl closerInl useDelims) := by
  simp only [List.mem_append, List.mem_cons, not_or] at hinline
  simp only [List.flatMap_append, List.flatMap_cons, hopener.1, hcloser.1, List.mem_append,
    List.mem_cons, not_or] at hids hout
  have hkept : ∀ m : List ℕ, (∀ q ∈ m.flatMap fun p => p :: sub p,
      q ≠ inlineNode ∧ q ≠ openerInl ∧ q ≠ closerInl) →
      leaves s' (m.flatMap fun p => p :: sub p) =
        (leaves s (m.flatMap fun p => p :: sub p)).filterMap
          (cut openerInl closerInl useDelims) := by
    intro m hm
    refine leaves_kept fun q hq => ?_
    obtain ⟨hw, ho, hc⟩ := hm q hq
    exact ⟨hrest q hw ho hc, ho, hc⟩
  have hself : regrouped sub inlineNode l inlineNode = l.flatMap fun q => q :: sub q := if_pos rfl
  have hgone : leaves s' [inlineNode] = [] := by simp [leaves, hmade, hnone]
  simp only [List.flatMap_append, List.flatMap_cons, hopener.1, hcloser.1,
    regrouped_flatMap hinline.2.1, regrouped_flatMap hinline.2.2.2.2.2,
    leftover_flatMap (Ne.symm hinline.2.2.1) hopener.1,
    leftover_flatMap (Ne.symm hinline.2.2.2.2.1) hcloser.1, hself]
  have hbefore := hkept before (by
    simp only [List.nodup_append, List.nodup_cons, List.mem_append, List.mem_cons] at hids
    grind)
  have hl := hkept l (by
    simp only [List.nodup_append, List.nodup_cons, List.mem_append, List.mem_cons] at hids
    grind)
  have hafter := hkept after (by
    simp only [List.nodup_append, List.nodup_cons, List.mem_append, List.mem_cons] at hids
    grind)
  have hcons : ∀ m, leaves s' (inlineNode :: m) = leaves s' m := by
    intro m
    rw [leaves_cons s' inlineNode m, hgone, List.nil_append]
  simp only [List.cons_append (a := inlineNode), hcons, leaves_append, hbefore, hl, hafter,
    hopener.2, hcloser.2, List.filterMap_append]

/-- The nodes held are the new inline and those before, without the runs of which nothing is
left. -/
lemma nodup_inserted {sub : ℕ → List ℕ} (openerNum closerNum : ℕ)
    (hinline : inlineNode ∉ holder :: (before ++ openerInl :: (l ++ closerInl :: after)))
    (hids : (before ++ openerInl :: (l ++ closerInl :: after)).flatMap (fun p => p :: sub p)
      |>.Nodup)
    (hopener : sub openerInl = []) (hcloser : sub closerInl = [])
    (hout : inlineNode ∉
      (before ++ openerInl :: (l ++ closerInl :: after)).flatMap fun p => p :: sub p) :
    let ids' := (before ++ (leftover openerNum openerInl ++
      inlineNode :: (leftover closerNum closerInl ++ after))).flatMap
        fun p => p :: regrouped sub inlineNode l p
    ids'.Nodup ∧ ∀ p ∈ ids', p = inlineNode ∨
      p ∈ (before ++ openerInl :: (l ++ closerInl :: after)).flatMap (fun p => p :: sub p) ∧
        (p = openerInl → openerNum ≠ 0) ∧ (p = closerInl → closerNum ≠ 0) := by
  intro ids'
  simp only [List.mem_append, List.mem_cons, not_or] at hinline
  have hself : regrouped sub inlineNode l inlineNode = l.flatMap fun q => q :: sub q := if_pos rfl
  have hids' : ids' = (before.flatMap fun p => p :: sub p) ++ (leftover openerNum openerInl ++
      inlineNode :: ((l.flatMap fun p => p :: sub p) ++
        (leftover closerNum closerInl ++ after.flatMap fun p => p :: sub p))) := by
    simp only [ids', List.flatMap_append, List.flatMap_cons, regrouped_flatMap hinline.2.1,
      regrouped_flatMap hinline.2.2.2.2.2, leftover_flatMap (Ne.symm hinline.2.2.1) hopener,
      leftover_flatMap (Ne.symm hinline.2.2.2.2.1) hcloser, hself, List.cons_append]
  simp only [List.flatMap_append, List.flatMap_cons, hopener, hcloser, List.singleton_append]
    at hids hout ⊢
  have hleft : ∀ num p, (leftover num p).Nodup ∧ ∀ q ∈ leftover num p, q = p ∧ num ≠ 0 := by
    intro num p
    rw [leftover]
    split
    next => exact ⟨List.nodup_nil, nofun⟩
    next hne => exact ⟨List.nodup_singleton p, fun q hq => ⟨List.mem_singleton.mp hq, hne⟩⟩
  obtain ⟨hnodup, hmem⟩ := hleft openerNum openerInl
  obtain ⟨hnodup', hmem'⟩ := hleft closerNum closerInl
  rw [hids']
  simp only [List.nodup_append, List.nodup_cons, List.mem_append, List.mem_cons] at hids hout ⊢
  constructor
  · grind
  · grind

/-! ### The whole insertion -/

/-- A pair on the stack: two text runs of one scaffold list, whose nodes stand in source order. -/
structure Pair (s : State K) (stack pool : List ℕ) (opener closer openerInl closerInl holder : ℕ)
    (ids before l after : List ℕ) (holderNode openerNode closerNode : Node K)
    (sign sign' : UInt8) (openerWidth closerWidth useDelims : ℕ) : Prop where
  stacked : Stacked s stack pool
  opener : opener ∈ stack ∧ (s.entries opener).node = some openerInl
  closer : closer ∈ stack ∧ (s.entries closer).node = some closerInl
  forest : Forest s.scaffolds holder ids
  apart : (holder :: ids).Nodup
  used : ∀ p ∈ holder :: ids, s.nodes p ≠ none
  list : Holds s.scaffolds holder (before ++ openerInl :: (l ++ closerInl :: after))
  sorted : (before ++ openerInl :: (l ++ closerInl :: after)).Pairwise fun p q =>
    ∀ n ∈ s.nodes p, ∀ m ∈ s.nodes q, n.place.stop ≤ m.place.start
  holder : s.nodes holder = some holderNode
  openerRun : Run s openerInl openerNode sign openerWidth
  closerRun : Run s closerInl closerNode sign' closerWidth
  enough : useDelims ≤ openerWidth ∧ useDelims ≤ closerWidth

/-- What an insertion leaves: the new inline between what is left of the two runs, and every other
node as it was. -/
structure Inserted (s s' : State K) (openerInl closerInl holder inlineNode : ℕ)
    (ids before l after : List ℕ) (openerNode closerNode made : Node K)
    (openerNum closerNum useDelims : ℕ) : Prop where
  outer : Holds s'.scaffolds holder (before ++ (leftover openerNum openerInl ++
    inlineNode :: (leftover closerNum closerInl ++ after)))
  inner : Holds s'.scaffolds inlineNode l
  leaves : ∃ ids', Forest s'.scaffolds holder ids' ∧ (holder :: ids').Nodup ∧
    (∀ p ∈ holder :: ids', s'.nodes p ≠ none) ∧
    leaves s' ids' = (leaves s ids).filterMap (cut openerInl closerInl useDelims)
  ends : ∀ p, p ≠ holder → p ≠ inlineNode → (s'.scaffolds p).first = (s.scaffolds p).first
  node : s'.nodes inlineNode = some made
  opener : s'.nodes openerInl = if openerNum = 0 then none else
    some { openerNode with
      literal := openerNode.literal.map (·.take openerNum)
      place := ⟨openerNode.place.start, made.place.start⟩ }
  closer : s'.nodes closerInl = if closerNum = 0 then none else
    some { closerNode with
      literal := closerNode.literal.map (·.take closerNum)
      offset := closerNode.offset + useDelims
      place := ⟨made.place.stop, closerNode.place.stop⟩ }
  rest : ∀ p, p ≠ inlineNode → p ≠ openerInl → p ≠ closerInl → s'.nodes p = s.nodes p
  start : made.place.start = openerNode.place.start + openerNum
  stop : made.place.stop + closerNum = closerNode.place.stop
  ordered : made.place.start ≤ made.place.stop
  holds : ∀ p ∈ l, ∀ n ∈ s.nodes p, made.place.start ≤ n.place.start ∧
    n.place.stop ≤ made.place.stop

section Whole

variable {sign sign' : UInt8} {openerWidth closerWidth : ℕ} {ids : List ℕ}

lemma Pair.exists_sub (h : Pair s stack pool opener closer openerInl closerInl holder ids before l
    after holderNode openerNode closerNode sign sign' openerWidth closerWidth useDelims) :
    ∃ sub : ℕ → List ℕ,
      (∀ p ∈ before ++ openerInl :: (l ++ closerInl :: after), Forest s.scaffolds p (sub p)) ∧
        ids = (before ++ openerInl :: (l ++ closerInl :: after)).flatMap fun p => p :: sub p := by
  have hlist := h.list
  have hforest := h.forest
  cases hforest with
  | node sub hholds hsub =>
    rw [hholds.unique hlist] at hsub ⊢
    exact ⟨sub, hsub, rfl⟩

/-- A run leaves the stack when too little is left of it to pair. -/
def remaining (stack : List ℕ) (entry num minimumWidth : ℕ) : List ℕ :=
  if Leaves num minimumWidth then stack.erase entry else stack

/-- The two runs settle: what is written is the scaffolds and the nodes of the two, and the stack
loses what cannot pair again. -/
lemma settle_spec {t s' : State K} {f : ℕ → Scaffold} {minimumWidth openerNum closerNum : ℕ}
    (ht : t = s.settleRun opener openerInl openerNum minimumWidth)
    (hs' : s' = t.settleRun closer closerInl closerNum minimumWidth)
    (hold : Holds s.scaffolds holder (before ++ openerInl :: inlineNode :: closerInl :: after))
    (hstack : Stacked s stack pool) (hopener : opener ∈ stack) (hcloser : closer ∈ stack)
    (hne : closer ≠ opener)
    (hf : f = settled (settled s.scaffolds holder openerInl openerNum) holder closerInl closerNum) :
    s'.scaffolds = f ∧
      (∀ p, s'.nodes p = if closerNum = 0 ∧ p = closerInl ∨ openerNum = 0 ∧ p = openerInl then none
        else s.nodes p) ∧
      s'.error = s.error ∧
      (∃ pool', Stacked s'
        (remaining (remaining stack opener openerNum minimumWidth) closer closerNum minimumWidth)
        pool') ∧
      (∀ e, (s'.entries e).bare = (s.entries e).bare) ∧
      (t.entries closer).next =
        Links.next (remaining stack opener openerNum minimumWidth) closer := by
  subst ht hs'
  set t := s.settleRun opener openerInl openerNum minimumWidth
  set s' := t.settleRun closer closerInl closerNum minimumWidth
  have hscaffolds : t.scaffolds = settled s.scaffolds holder openerInl openerNum :=
    settleRun_scaffolds hold
  obtain ⟨hstack', hbare⟩ : Stacked t (remaining stack opener openerNum minimumWidth) _ ∧
      ∀ e, (t.entries e).bare = (s.entries e).bare := settleRun_stacked hold hstack hopener
  have hin : closer ∈ remaining stack opener openerNum minimumWidth := by
    rw [remaining]
    split
    next => exact (List.mem_erase_of_ne hne).mpr hcloser
    next => exact hcloser
  have heq : before ++ (leftover openerNum openerInl ++ inlineNode :: closerInl :: after) =
      (before ++ (leftover openerNum openerInl ++ [inlineNode])) ++ closerInl :: after := by simp
  have hspec := hold.settled_spec openerNum
  rw [heq, ← hscaffolds] at hspec
  obtain ⟨hstack'', hbare'⟩ : Stacked s' (remaining _ closer closerNum minimumWidth) _ ∧
      ∀ e, (s'.entries e).bare = (t.entries e).bare := settleRun_stacked hspec hstack' hin
  refine ⟨?_, fun p => ?_, ?_, ⟨_, hstack''⟩, fun e => (hbare' e).trans (hbare e), ?_⟩
  · rw [settleRun_scaffolds hspec, hscaffolds, hf]
  · rw [settleRun_nodes hspec, settleRun_nodes hold]
    by_cases hc : closerNum = 0 <;> by_cases ho : openerNum = 0 <;>
      simp only [hc, ho, if_true, if_false, true_and, false_and, Function.update_apply] <;>
      grind
  · rw [settleRun_error hspec, settleRun_error hold]
  · exact hstack'.next closer hin

/-- The two runs stand apart in the source, and what is listed between them stands between. -/
lemma Pair.places (h : Pair s stack pool opener closer openerInl closerInl holder ids before l after
    holderNode openerNode closerNode sign sign' openerWidth closerWidth useDelims) :
    openerNode.place.stop ≤ closerNode.place.start ∧
      ∀ p ∈ l, ∀ n ∈ s.nodes p, openerNode.place.stop ≤ n.place.start ∧
        n.place.stop ≤ closerNode.place.start := by
  have hsorted := (List.pairwise_cons.mp (List.pairwise_append.mp h.sorted).2.1)
  refine ⟨?_, fun p hp n hn => ⟨?_, ?_⟩⟩
  · exact hsorted.1 closerInl (by simp) _ h.openerRun.stored _ h.closerRun.stored
  · exact hsorted.1 p (by simp [hp]) _ h.openerRun.stored _ hn
  · exact (List.pairwise_append.mp hsorted.2).2.2 p hp closerInl List.mem_cons_self _ hn _
      h.closerRun.stored

lemma nodes_inserted {s' : State K} {made : Node K}
    (hapart : Apart before l after openerInl closerInl holder inlineNode)
    (hnodes : ∀ p, s'.nodes p =
      if closerNum = 0 ∧ p = closerInl ∨ openerNum = 0 ∧ p = openerInl then none
      else placed s.nodes inlineNode openerInl closerInl made openerNode closerNode openerNum
        closerNum useDelims p) :
    s'.nodes inlineNode = some { made with
        place := ⟨openerNode.place.start + openerNum, closerNode.place.stop - closerNum⟩ } ∧
      (s'.nodes openerInl = if openerNum = 0 then none else
        some { openerNode with
          literal := openerNode.literal.map (·.take openerNum)
          place := ⟨openerNode.place.start, openerNode.place.start + openerNum⟩ }) ∧
      (s'.nodes closerInl = if closerNum = 0 then none else
        some { closerNode with
          literal := closerNode.literal.map (·.take closerNum)
          offset := closerNode.offset + useDelims
          place := ⟨closerNode.place.stop - closerNum, closerNode.place.stop⟩ }) ∧
      ∀ p, p ≠ inlineNode → p ≠ openerInl → p ≠ closerInl → s'.nodes p = s.nodes p := by
  have hne := hapart.ne
  have hin := hapart.inline
  simp only [List.mem_append, List.mem_cons, not_or] at hin
  refine ⟨?_, ?_, ?_, fun p hp ho hc => ?_⟩
  · rw [hnodes, if_neg (by grind), placed, if_pos rfl]
  · rw [hnodes, placed, if_neg (Ne.symm hin.2.2.1), if_pos rfl]
    by_cases hzero : openerNum = 0
    · rw [if_pos (Or.inr ⟨hzero, rfl⟩), if_pos hzero]
    · rw [if_neg (by grind), if_neg hzero, if_pos (Nat.pos_of_ne_zero hzero)]
  · rw [hnodes, placed, if_neg (Ne.symm hin.2.2.2.2.1), if_neg (Ne.symm hne), if_pos rfl]
    by_cases hzero : closerNum = 0
    · rw [if_pos (Or.inl ⟨hzero, rfl⟩), if_pos hzero]
    · rw [if_neg (by grind), if_neg hzero, if_pos (Nat.pos_of_ne_zero hzero),
        if_pos (Nat.pos_of_ne_zero hzero)]
  · rw [hnodes, if_neg (by grind), placed, if_neg hp, if_neg ho, if_neg hc]

/-- An insertion that storage is granted for moves everything once. -/
lemma Pair.inserted (h : Pair s stack pool opener closer openerInl closerInl holder ids before l
    after holderNode openerNode closerNode sign sign' openerWidth closerWidth useDelims)
    (hcan : canContain holderNode kind = true) (hfree : s.nodes inlineNode = none)
    (hfuel : l.length < fuel) :
    let minimumWidth := (specOf (s.entries closer).rule).minimumWidth
    let openerNum := openerWidth - useDelims
    let closerNum := closerWidth - useDelims
    ∃ s' next made, s.insertDelimitedInline canContain specOf (some inlineNode) fuel opener closer
        useDelims kind = some (s', next) ∧
      Inserted s s' openerInl closerInl holder inlineNode ids before l after openerNode closerNode
        made openerNum closerNum useDelims ∧
      made.kind = kind ∧ made.element = (s.entries closer).owner ∧ s'.error = s.error ∧
      (∃ pool', Stacked s'
        (remaining (remaining stack opener openerNum minimumWidth) closer closerNum minimumWidth)
        pool') ∧
      (∀ e, (s'.entries e).bare = (s.entries e).bare) ∧
      next = if Leaves closerNum minimumWidth then
        Links.next (remaining stack opener openerNum minimumWidth) closer else some closer := by
  intro minimumWidth openerNum closerNum
  obtain ⟨sub, hsub, hids⟩ := h.exists_sub
  have hin : ∀ p ∈ before ++ openerInl :: (l ++ closerInl :: after), p ∈ ids := by
    intro p hp
    rw [hids]
    exact List.mem_flatMap.mpr ⟨p, hp, List.mem_cons_self⟩
  have hinline : inlineNode ∉ holder :: ids := fun hin => h.used _ hin hfree
  have hinline' : inlineNode ∉ holder :: (before ++ openerInl :: (l ++ closerInl :: after)) := by
    intro hmem
    rcases List.mem_cons.mp hmem with rfl | hmem
    · exact hinline List.mem_cons_self
    · exact hinline (List.mem_cons_of_mem _ (hin _ hmem))
  have hapart := h.list.apart_runs hinline'
  have hne : closer ≠ opener := by
    rintro rfl
    exact hapart.ne (Option.some_inj.mp (h.opener.2.symm.trans h.closer.2))
  have hliteral := h.openerRun.literal
  have hliteral' := h.closerRun.literal
  have heq := insert_eq specOf useDelims h.list hinline' h.opener.2
    h.closer.2 h.openerRun.stored h.closerRun.stored h.holder hliteral hliteral' hcan hfuel
  simp only [List.length_replicate] at heq
  set t₀ := s.inserted inlineNode openerInl closerInl holder l
    ⟨kind, (s.entries closer).owner, ⟨0, 0⟩, 0, none⟩ openerNode closerNode openerNum closerNum
      useDelims
  have hold : Holds t₀.scaffolds holder (before ++ openerInl :: inlineNode :: closerInl :: after) :=
    (h.list.blank hinline').between_outer hapart
  have hmoved := moved_inserted openerNum closerNum h.list hinline'
  obtain ⟨t, ht⟩ : ∃ t, t = t₀.settleRun opener openerInl openerNum minimumWidth := ⟨_, rfl⟩
  obtain ⟨s', hs'⟩ : ∃ s', s' = t.settleRun closer closerInl closerNum minimumWidth := ⟨_, rfl⟩
  rw [← ht, ← hs'] at heq
  have hstacked : Stacked t₀ stack pool := h.stacked.with_nodes _ _
  obtain ⟨hscaffolds, hnodes, herror, hstack, hbare, hnext⟩ :=
    settle_spec ht hs' hold hstacked h.opener.1 h.closer.1 hne rfl
  have hf : s'.scaffolds =
      insertedScaffolds s.scaffolds inlineNode openerInl closerInl holder l openerNum closerNum :=
    hscaffolds
  refine ⟨s', _, { (⟨kind, (s.entries closer).owner, ⟨0, 0⟩, 0, none⟩ : Node K) with
    place := ⟨openerNode.place.start + openerNum, closerNode.place.stop - closerNum⟩ }, heq, ?_,
    rfl, rfl, herror, hstack, hbare, ?_⟩
  · obtain ⟨hwritten, hopen, hclose, hrest⟩ := nodes_inserted hapart hnodes
    have hopener := (hsub openerInl (by simp)).eq_nil h.openerRun.childless
    have hcloser := (hsub closerInl (by simp)).eq_nil h.closerRun.childless
    have hwidth := h.enough
    have hplace := h.openerRun.place
    have hplace' := h.closerRun.place
    obtain ⟨hbetween, hwithin⟩ := h.places
    have hout : inlineNode ∉ (before ++ openerInl :: (l ++ closerInl :: after)).flatMap
        fun p => p :: sub p := fun hmem => hinline (hids ▸ List.mem_cons_of_mem _ hmem)
    have hnodup := h.apart
    rw [hids] at hnodup
    have hin' := hapart.inline
    simp only [List.mem_append, List.mem_cons, not_or] at hin'
    obtain ⟨hnodup', hmem'⟩ := nodup_inserted openerNum closerNum hinline'
      (List.nodup_cons.mp hnodup).2 hopener hcloser hout
    refine ⟨?_, ?_, ⟨(before ++ (leftover openerNum openerInl ++
      inlineNode :: (leftover closerNum closerInl ++ after))).flatMap
        fun p => p :: regrouped sub inlineNode l p, ?_, ?_, ?_, ?_⟩, ?_, hwritten, hopen, ?_, hrest,
      rfl, ?_, ?_, ?_⟩
    · rw [hf]
      exact hmoved.outer
    · rw [hf]
      exact hmoved.inner
    · rw [hf]
      refine forest_inserted hmoved hsub (fun p hp => by simp [hp]) (fun p hp hp' => ?_) hnodup ?_
      · have hopen' := @eq_of_mem_leftover openerInl openerNum p
        have hclose' := @eq_of_mem_leftover closerInl closerNum p
        simp only [List.mem_append, List.mem_cons] at hp ⊢
        grind
      · rw [← hids]
        exact hinline
    · refine List.nodup_cons.mpr ⟨fun hmem => ?_, hnodup'⟩
      rcases hmem' holder hmem with heq | ⟨hold, -⟩
      · exact hinline (heq ▸ List.mem_cons_self)
      · exact (List.nodup_cons.mp hnodup).1 hold
    · intro p hp
      by_cases hpi : p = inlineNode
      · rw [hpi, hwritten]
        exact Option.some_ne_none _
      by_cases hpo : p = openerInl
      · rcases List.mem_cons.mp hp with heq | hp
        · exact absurd (hin openerInl (by simp)) (hpo ▸ heq ▸ (List.nodup_cons.mp h.apart).1)
        · have hne := ((hmem' p hp).resolve_left hpi).2.1 hpo
          rw [hpo, hopen, if_neg hne]
          exact Option.some_ne_none _
      by_cases hpc : p = closerInl
      · rcases List.mem_cons.mp hp with heq | hp
        · exact absurd (hin closerInl (by simp)) (hpc ▸ heq ▸ (List.nodup_cons.mp h.apart).1)
        · have hne := ((hmem' p hp).resolve_left hpi).2.2 hpc
          rw [hpc, hclose, if_neg hne]
          exact Option.some_ne_none _
      rw [hrest p hpi hpo hpc]
      refine h.used p ?_
      rcases List.mem_cons.mp hp with heq | hp
      · exact heq ▸ List.mem_cons_self
      · rw [hids]
        exact List.mem_cons_of_mem _ ((hmem' p hp).resolve_left hpi).1
    · rw [hids]
      refine leaves_inserted hinline' (List.nodup_cons.mp hnodup).2 ⟨hopener, ?_⟩ ⟨hcloser, ?_⟩
        hwritten rfl hrest hout
      · exact leaves_run h.openerRun (Or.inl rfl) hwidth.1 rfl fun hne =>
          ⟨_, hopen.trans (if_neg hne), rfl⟩
      · exact leaves_run h.closerRun (Or.inr rfl) hwidth.2 rfl fun hne =>
          ⟨_, hclose.trans (if_neg hne), rfl⟩
    · intro p hp hp'
      rw [hf]
      exact (hmoved.ends p hp hp').1
    · exact hclose
    · exact Nat.sub_add_cancel (by omega)
    · dsimp only
      omega
    · intro p hp n hn
      obtain ⟨hstart, hstop⟩ := hwithin p hp n hn
      dsimp only
      omega
  · exact congrArg (fun e => if Leaves closerNum minimumWidth then e else some closer) hnext

/-- Two entries leave the stack, and nothing else changes, where the holder cannot hold the
inline. -/
lemma Pair.refused (h : Pair s stack pool opener closer openerInl closerInl holder ids before l
    after holderNode openerNode closerNode sign sign' openerWidth closerWidth useDelims)
    (hcan : canContain holderNode kind = false) (granted : Option ℕ) :
    ∃ s', s.insertDelimitedInline canContain specOf granted fuel opener closer useDelims kind =
        some (s', Links.next stack closer) ∧
      s'.nodes = s.nodes ∧ s'.scaffolds = s.scaffolds ∧ s'.error = s.error ∧
      (∃ pool', Stacked s' ((stack.erase opener).erase closer) pool') ∧
      ∀ e, (s'.entries e).bare = (s.entries e).bare := by
  have hparent := h.list.parent openerInl (by simp)
  have hne : closer ≠ opener := by
    rintro rfl
    have hrun := h.opener.2.symm.trans h.closer.2
    have hnodup := h.list.nodup
    simp only [Option.some_inj.mp hrun, List.nodup_append, List.nodup_cons] at hnodup
    simp at hnodup
  have hclose := (List.mem_erase_of_ne hne).mpr h.closer.1
  have hstack := h.stacked.erase h.opener.1
  refine ⟨(s.removeDelimiter opener).removeDelimiter closer, ?_, by simp, by simp, by simp,
    ⟨_, hstack.erase hclose⟩, fun e => ?_⟩
  · rw [State.insertDelimitedInline]
    simp only [h.opener.2, h.closer.2, h.openerRun.stored, h.closerRun.stored, h.openerRun.literal,
      h.closerRun.literal, hparent, h.holder, hcan, Option.bind_eq_bind, Option.bind_some, if_true]
    rw [h.stacked.next closer h.closer.1]
  · exact (hstack.bare_erase hclose e).trans (h.stacked.bare_erase h.opener.1 e)

lemma Pair.unallocated
    (h : Pair s stack pool opener closer openerInl closerInl holder ids before l after holderNode
      openerNode closerNode sign sign' openerWidth closerWidth useDelims)
    (hcan : canContain holderNode kind = true) :
    s.insertDelimitedInline canContain specOf none fuel opener closer useDelims kind =
      some ({ s with error := true }, Links.next stack closer) := by
  have hparent := h.list.parent openerInl (by simp)
  rw [State.insertDelimitedInline]
  simp only [h.opener.2, h.closer.2, h.openerRun.stored, h.closerRun.stored, h.openerRun.literal,
    h.closerRun.literal, hparent, h.holder, hcan, Option.bind_eq_bind, Option.bind_some,
    Bool.true_eq_false, if_false]
  rw [h.stacked.next closer h.closer.1]

/-- An insertion refused or without storage leaves every node as it was, and one that is made moves
everything once. -/
theorem insertion_moves_once (canContain : Node K → K → Bool) (specOf : Rule → RuleSpec K)
    (fuel : ℕ) (kind : K)
    (h : Pair s stack pool opener closer openerInl closerInl holder ids before l after holderNode
      openerNode closerNode sign sign' openerWidth closerWidth useDelims)
    (granted : Option ℕ) (hfree : ∀ p ∈ granted, s.nodes p = none) (hfuel : l.length < fuel) :
    let minimumWidth := (specOf (s.entries closer).rule).minimumWidth
    let openerNum := openerWidth - useDelims
    let closerNum := closerWidth - useDelims
    ∃ s' next, s.insertDelimitedInline canContain specOf granted fuel opener closer useDelims kind =
        some (s', next) ∧
      (∀ e, (s'.entries e).bare = (s.entries e).bare) ∧
      (canContain holderNode kind = false →
        s'.nodes = s.nodes ∧ s'.scaffolds = s.scaffolds ∧ s'.error = s.error ∧
          (∃ pool', Stacked s' ((stack.erase opener).erase closer) pool') ∧
          next = Links.next stack closer) ∧
      (canContain holderNode kind = true → granted = none →
        s' = { s with error := true } ∧ next = Links.next stack closer) ∧
      (canContain holderNode kind = true → ∀ inlineNode, granted = some inlineNode →
        s'.error = s.error ∧
          (∃ made, made.kind = kind ∧ made.element = (s.entries closer).owner ∧
            Inserted s s' openerInl closerInl holder inlineNode ids before l after openerNode
              closerNode made openerNum closerNum useDelims) ∧
          (∃ pool', Stacked s' (remaining (remaining stack opener openerNum minimumWidth) closer
            closerNum minimumWidth) pool') ∧
          next = if Leaves closerNum minimumWidth then
            Links.next (remaining stack opener openerNum minimumWidth) closer
          else some closer) := by
  intro minimumWidth openerNum closerNum
  cases hcan : canContain holderNode kind with
  | false =>
    obtain ⟨s', heq, hnodes, hscaffolds, herror, hstack, hbare⟩ := h.refused hcan granted
    exact ⟨s', _, heq, hbare, fun _ => ⟨hnodes, hscaffolds, herror, hstack, rfl⟩,
      fun htrue => absurd htrue Bool.false_ne_true, fun htrue => absurd htrue Bool.false_ne_true⟩
  | true =>
    cases granted with
    | none =>
      exact ⟨_, _, h.unallocated hcan, fun e => rfl,
        fun hfalse => absurd hfalse.symm Bool.false_ne_true, fun _ _ => ⟨rfl, rfl⟩,
        fun _ _ hsome => absurd hsome.symm (Option.some_ne_none _)⟩
    | some inlineNode =>
      obtain ⟨s', next, made, heq, hinserted, hkind, howner, herror, hstack, hbare, hnext⟩ :=
        h.inserted hcan (hfree _ rfl) hfuel
      refine ⟨s', next, heq, hbare, fun hfalse => absurd hfalse.symm Bool.false_ne_true,
        fun _ hnone => absurd hnone (Option.some_ne_none _), fun _ p hp => ?_⟩
      obtain rfl := Option.some_inj.mp hp
      exact ⟨herror, ⟨made, hkind, howner, hinserted⟩, hstack, hnext⟩

end Whole

end Insertion

/-! ### A pair of which one run is left -/

/-- The text of `**a*`: the holder, the two runs and what stands between them, and two entries. -/
def twoAndOne : State ℕ where
  scaffolds p :=
    if p = 0 then { first := some 1, last := some 3 }
    else if p = 1 then { parent := some 0, next := some 2 }
    else if p = 2 then { parent := some 0, prev := some 1, next := some 3 }
    else if p = 3 then { parent := some 0, prev := some 2 }
    else {}
  nodes p :=
    if p = 0 then some ⟨0, none, ⟨0, 4⟩, 0, none⟩
    else if p = 1 then some ⟨1, none, ⟨0, 2⟩, 0, some [0x2a, 0x2a]⟩
    else if p = 2 then some ⟨1, none, ⟨2, 3⟩, 2, some [0x61]⟩
    else if p = 3 then some ⟨1, none, ⟨3, 4⟩, 3, some [0x2a]⟩
    else none
  entries e :=
    if e = 0 then
      { next := some 1, node := some 1, position := 2, length := 2, rule := .emphasis,
        canOpen := true }
    else if e = 1 then
      { previous := some 0, node := some 3, position := 4, length := 1, rule := .emphasis,
        canClose := true }
    else {}
  lastDelim := some 1
  freeDelimiters := none
  delimOpeners r := if r = .emphasis then 1 else 0
  delimClosers r := if r = .emphasis then 1 else 0
  asked _ := false
  undecided := 4
  error := false

lemma twoAndOne_leaf {p : ℕ} (hp : p ∈ [1, 2, 3]) : Forest twoAndOne.scaffolds p [] := by
  refine .node (l := []) (fun _ => []) ?_ fun q hq => absurd hq List.not_mem_nil
  refine ⟨List.nodup_nil, List.not_mem_nil, ?_, ?_, ?_, ?_, ?_⟩ <;>
    simp only [List.not_mem_nil, false_imp_iff, implies_true, List.head?_nil, List.getLast?_nil] <;>
    revert p <;> decide

lemma twoAndOne_list : Holds twoAndOne.scaffolds 0 [1, 2, 3] := by
  refine ⟨?_, ?_, ?_, ?_, ?_, rfl, rfl⟩ <;> decide

lemma twoAndOne_pair : Pair twoAndOne [0, 1] [] 0 1 1 3 0 [1, 2, 3] [] [2] []
    ⟨0, none, ⟨0, 4⟩, 0, none⟩ ⟨1, none, ⟨0, 2⟩, 0, some [0x2a, 0x2a]⟩
    ⟨1, none, ⟨3, 4⟩, 3, some [0x2a]⟩ 0x2a 0x2a 2 1 1 where
  stacked := by
    refine ⟨?_, ?_, ?_, rfl, ?_, rfl, fun r => ?_, fun r => ?_⟩
    · decide
    · decide
    · decide
    · decide
    · cases r <;> rfl
    · cases r <;> rfl
  opener := by decide
  closer := by decide
  forest := .node (fun _ => []) twoAndOne_list fun _ hp => twoAndOne_leaf hp
  apart := by decide
  used := by decide
  list := twoAndOne_list
  sorted := by simp [twoAndOne]
  holder := rfl
  openerRun := ⟨rfl, rfl, rfl, rfl⟩
  closerRun := ⟨rfl, rfl, rfl, rfl⟩
  enough := by decide

theorem insertion_moves_once_left :
    ∃ s' next, twoAndOne.insertDelimitedInline (fun _ _ => true)
        (fun _ => ⟨1, 2, true, .inlineBody, 2, 3⟩) (some 4) 2 0 1 1 2 = some (s', next) ∧
      Holds s'.scaffolds 0 [1, 4] ∧ Holds s'.scaffolds 4 [2] ∧ next = none := by
  obtain ⟨s', next, heq, -, -, -, hmade⟩ :=
    insertion_moves_once (fun _ _ => true) (fun _ => ⟨1, 2, true, .inlineBody, 2, 3⟩) 2 2
      twoAndOne_pair (some 4) (fun p hp => by obtain rfl := Option.some_inj.mp hp; rfl) (by decide)
  obtain ⟨-, ⟨made, -, -, hinserted⟩, -, hnext⟩ := hmade rfl 4 rfl
  exact ⟨s', next, heq, hinserted.outer, hinserted.inner, hnext⟩

end MarkdownCore.Delimiter
