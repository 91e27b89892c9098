import MarkdownCore.Delimiter.Ranges

/-!
# What a pair keeps

A range of the stack whose marks stand in one list of nodes, in the order of the stack, does so
after every pair: the new inline takes what stands between the two runs, and every other mark stays
in the list.
-/

namespace MarkdownCore.Delimiter

variable {K : Type}

/-! ### Leaves shortened -/

/-- Leaves in order, those of the marks cut or gone and every other kept whole. -/
inductive Shortened (marks : List ℕ) : List (ℕ × List UInt8) → List (ℕ × List UInt8) → Prop where
  | nil : Shortened marks [] []
  | keep (leaf : ℕ × List UInt8) {l l' : List (ℕ × List UInt8)} :
    Shortened marks l l' → Shortened marks (leaf :: l) (leaf :: l')
  | cut {p : ℕ} (bytes : List UInt8) (n : ℕ) {l l' : List (ℕ × List UInt8)} (hp : p ∈ marks) :
    Shortened marks l l' → Shortened marks ((p, bytes) :: l) ((p, bytes.take n) :: l')
  | gone (leaf : ℕ × List UInt8) {l l' : List (ℕ × List UInt8)} (hp : leaf.1 ∈ marks) :
    Shortened marks l l' → Shortened marks (leaf :: l) l'

section

variable {marks : List ℕ} {l l' l'' : List (ℕ × List UInt8)}

lemma Shortened.refl (marks : List ℕ) (l : List (ℕ × List UInt8)) : Shortened marks l l := by
  induction l with
  | nil => exact .nil
  | cons leaf l ih => exact .keep leaf ih

lemma Shortened.trans (h : Shortened marks l l') (h' : Shortened marks l' l'') :
    Shortened marks l l'' := by
  induction h generalizing l'' with
  | nil => exact h'
  | keep leaf _ ih =>
    cases h' with
    | keep _ h' => exact .keep leaf (ih h')
    | cut bytes n hp h' => exact .cut bytes n hp (ih h')
    | gone _ hp h' => exact .gone leaf hp (ih h')
  | cut bytes n hp _ ih =>
    cases h' with
    | keep _ h' => exact .cut bytes n hp (ih h')
    | cut _ m _ h' =>
      rw [List.take_take]
      exact .cut bytes _ hp (ih h')
    | gone _ _ h' => exact .gone (_, bytes) hp (ih h')
  | gone leaf hp _ ih => exact .gone leaf hp (ih h')

lemma Shortened.mono {marks' : List ℕ} (h : Shortened marks l l') (hsub : marks ⊆ marks') :
    Shortened marks' l l' := by
  induction h with
  | nil => exact .nil
  | keep leaf _ ih => exact .keep leaf ih
  | cut bytes n hp _ ih => exact .cut bytes n (hsub hp) ih
  | gone leaf hp _ ih => exact .gone leaf (hsub hp) ih

/-- The cut of a pair: what a closer loses at its start it may as well lose at its end. -/
lemma shortened_cut {o c used : ℕ} (ho : o ∈ marks) (hc : c ∈ marks)
    (hl : ∀ leaf ∈ l, leaf.1 = c → leaf.2.drop used = leaf.2.take (leaf.2.length - used)) :
    Shortened marks l (l.filterMap (cut o c used)) := by
  induction l with
  | nil => exact .nil
  | cons leaf l ih =>
    have ih := ih fun x hx => hl x (List.mem_cons_of_mem _ hx)
    have hleaf := hl leaf List.mem_cons_self
    obtain ⟨p, bytes⟩ := leaf
    rw [List.filterMap_cons, Delimiter.cut]
    dsimp only at hleaf ⊢
    by_cases hlen : bytes.length = used <;> by_cases hpo : p = o
    · rw [if_pos hpo, if_pos hlen]
      exact .gone _ (hpo ▸ ho) ih
    · rw [if_neg hpo, if_pos hlen]
      by_cases hpc : p = c
      · rw [if_pos hpc]
        exact .gone _ (hpc ▸ hc) ih
      · rw [if_neg hpc]
        exact .keep _ ih
    · rw [if_pos hpo, if_neg hlen]
      exact .cut bytes _ (hpo ▸ ho) ih
    · rw [if_neg hpo, if_neg hlen]
      by_cases hpc : p = c
      · rw [if_pos hpc, hleaf hpc]
        exact .cut bytes _ (hpc ▸ hc) ih
      · rw [if_neg hpc]
        exact .keep _ ih

end

/-! ### The range -/

/-- The node of a marker's run. -/
def markOf (entries : ℕ → Entry) (e : ℕ) : Option ℕ :=
  if (entries e).kind = .marker then (entries e).node else none

lemma markOf_congr {entries entries' : ℕ → Entry} (h : ∀ e, (entries' e).bare = (entries e).bare) :
    markOf entries' = markOf entries := by
  funext e
  rw [markOf, markOf, bare_kind (h e), bare_node (h e)]

/-- The entries of a range: what is no marker neither opens nor closes, no mark's pair is its
element's to make, and the range is what the stack holds from its bottom. -/
structure Fit (entries : ℕ → Entry) (E : Elements K) (bottom : ℕ) (below range : List ℕ) :
    Prop where
  plain : ∀ e ∈ range, (entries e).kind ≠ .marker →
    (entries e).canOpen = false ∧ (entries e).canClose = false
  built : ∀ e ∈ range, (E.specOf (entries e).rule).minimumWidth ≠ 0 ∨
    (entries e).owner.bind E.insertFromDelim = none
  above_bottom : ∀ e ∈ range, bottom ≤ (entries e).position
  below_bottom : ∀ e ∈ below.getLast?, (entries e).position < bottom

/-- A range of the stack over one list of nodes: its marks stand there in the order of the stack,
each a run of one sign and wide enough for its rule. -/
structure Ready (s : State K) (E : Elements K) (bottom : ℕ) (below range above pool : List ℕ)
    (holder : ℕ) (ids list : List ℕ) : Prop where
  stacked : Stacked s (below ++ (range ++ above)) pool
  fit : Fit s.entries E bottom below range
  forest : Forest s.scaffolds holder ids
  apart : (holder :: ids).Nodup
  used : ∀ p ∈ holder :: ids, s.nodes p ≠ none
  held : Holds s.scaffolds holder list
  sorted : list.Pairwise fun p q => ∀ n ∈ s.nodes p, ∀ m ∈ s.nodes q, n.place.stop ≤ m.place.start
  marks : (range.filterMap (markOf s.entries)).Sublist list
  runs : ∀ e ∈ range, (s.entries e).kind = .marker → ∃ p node sign width,
    (s.entries e).node = some p ∧ Run s p node sign width ∧
      (E.specOf (s.entries e).rule).minimumWidth ≤ width

variable {s s' : State K} {E : Elements K} {bottom holder : ℕ}
  {below range range' above stack pool pool' ids list : List ℕ}

lemma Fit.sublist {entries entries' : ℕ → Entry} (h : Fit entries E bottom below range)
    (hbare : ∀ e, (entries' e).bare = (entries e).bare) (hsub : range'.Sublist range) :
    Fit entries' E bottom below range' := by
  refine ⟨fun e he hkind => ?_, fun e he => ?_, fun e he => ?_, fun e he => ?_⟩
  · rw [bare_kind (hbare e)] at hkind
    rw [bare_canOpen (hbare e), bare_canClose (hbare e)]
    exact h.plain e (hsub.mem he) hkind
  · rw [bare_rule (hbare e), bare_owner (hbare e)]
    exact h.built e (hsub.mem he)
  · rw [bare_position (hbare e)]
    exact h.above_bottom e (hsub.mem he)
  · rw [bare_position (hbare e)]
    exact h.below_bottom e he

/-- Entries that leave the range leave the rest of it as it was. -/
lemma Ready.sublist (h : Ready s E bottom below range above pool holder ids list)
    (hunmoved : Unmoved s s') (hsub : range'.Sublist range)
    (hstacked : Stacked s' (below ++ (range' ++ above)) pool') :
    Ready s' E bottom below range' above pool' holder ids list := by
  have hbare := hunmoved.bare
  refine ⟨hstacked, h.fit.sublist hbare hsub, ?_, h.apart, ?_, ?_, ?_, ?_, fun e he hkind => ?_⟩
  · rw [hunmoved.scaffolds]
    exact h.forest
  · rw [hunmoved.nodes]
    exact h.used
  · rw [hunmoved.scaffolds]
    exact h.held
  · rw [hunmoved.nodes]
    exact h.sorted
  · rw [markOf_congr hbare]
    exact (hsub.filterMap _).trans h.marks
  · rw [bare_kind (hbare e)] at hkind
    rw [bare_node (hbare e), bare_rule (hbare e)]
    obtain ⟨p, node, sign, width, hnode, hrun, hwidth⟩ := h.runs e (hsub.mem he) hkind
    refine ⟨p, node, sign, width, hnode, ⟨?_, hrun.literal, hrun.place, ?_⟩, hwidth⟩
    · rw [hunmoved.nodes]
      exact hrun.stored
    · rw [hunmoved.scaffolds]
      exact hrun.childless

lemma sublist_split {α : Type} {xs ys l : List α} {a : α} (h : (xs ++ a :: ys).Sublist l) :
    ∃ before after, l = before ++ a :: after ∧ xs.Sublist before ∧ ys.Sublist after := by
  obtain ⟨l₁, l₂, rfl, hxs, hays⟩ := List.append_sublist_iff.mp h
  obtain ⟨m₁, m₂, rfl, ha, hys⟩ := List.cons_sublist_iff.mp hays
  obtain ⟨n₁, n₂, rfl⟩ := List.append_of_mem ha
  refine ⟨l₁ ++ n₁, n₂ ++ m₂, by simp, ?_, ?_⟩
  · exact hxs.trans (List.sublist_append_left _ _)
  · exact hys.trans (List.sublist_append_right _ _)

/-- A marker of the range, and its run. -/
lemma Ready.marker (h : Ready s E bottom below range above pool holder ids list) {e : ℕ}
    (he : e ∈ range) (hcan : (s.entries e).canOpen = true ∨ (s.entries e).canClose = true) :
    ∃ p node sign width, (s.entries e).node = some p ∧ markOf s.entries e = some p ∧
      Run s p node sign width ∧ (E.specOf (s.entries e).rule).minimumWidth ≤ width ∧
      s.width e = width := by
  have hkind : (s.entries e).kind = .marker := by
    by_contra hne
    obtain ⟨hopen, hclose⟩ := h.fit.plain e he hne
    rw [hopen, hclose] at hcan
    simp at hcan
  obtain ⟨p, node, sign, width, hnode, hrun, hwidth⟩ := h.runs e he hkind
  refine ⟨p, node, sign, width, hnode, by rw [markOf, if_pos hkind, hnode], hrun, hwidth, ?_⟩
  simp [State.width, hnode, hrun.stored, hrun.literal]

/-! ### A pair of the range -/

section Pair

variable {A B C : List ℕ} {o c : ℕ}

lemma usedDelims_spec {spec : RuleSpec K} (hwidths : spec.minimumWidth ≤ spec.maximumWidth)
    (hmin : spec.minimumWidth ≠ 0) (ho : spec.minimumWidth ≤ s.width o)
    (hc : spec.minimumWidth ≤ s.width c) :
    s.usedDelims spec o c ≠ 0 ∧ s.usedDelims spec o c ≤ s.width o ∧
      s.usedDelims spec o c ≤ s.width c := by
  rw [State.usedDelims]
  split
  next => exact ⟨hmin, ho, hc⟩
  next hmax =>
    rw [not_or, not_lt, not_lt] at hmax
    exact ⟨by omega, hmax⟩

/-- The two runs of a pair stand in the list, the marks before and after them on either side. -/
lemma Ready.pair (h : Ready s E bottom below (A ++ o :: (B ++ c :: C)) above pool holder ids list)
    (hwidths : ∀ r, (E.specOf r).minimumWidth ≤ (E.specOf r).maximumWidth)
    (ho : (s.entries o).canOpen = true) (hc : (s.entries c).canClose = true)
    (hrule : (s.entries o).rule = (s.entries c).rule)
    (hmin : (E.specOf (s.entries c).rule).minimumWidth ≠ 0) :
    ∃ openerInl closerInl before l after holderNode openerNode closerNode sign sign',
      list = before ++ openerInl :: (l ++ closerInl :: after) ∧
      markOf s.entries o = some openerInl ∧ markOf s.entries c = some closerInl ∧
      (A.filterMap (markOf s.entries)).Sublist before ∧
      (C.filterMap (markOf s.entries)).Sublist after ∧
      s.usedDelims (E.specOf (s.entries c).rule) o c ≠ 0 ∧
      Pair s (below ++ ((A ++ o :: (B ++ c :: C)) ++ above)) pool o c openerInl closerInl holder ids
        before l after holderNode openerNode closerNode sign sign' (s.width o) (s.width c)
        (s.usedDelims (E.specOf (s.entries c).rule) o c) := by
  obtain ⟨openerInl, openerNode, sign, openerWidth, hnode, hmark, hrun, hwidth, rfl⟩ :=
    h.marker (e := o) (by simp) (Or.inl ho)
  obtain ⟨closerInl, closerNode, sign', closerWidth, hnode', hmark', hrun', hwidth', rfl⟩ :=
    h.marker (e := c) (by simp) (Or.inr hc)
  have hmarks := h.marks
  rw [List.filterMap_append, List.filterMap_cons_some hmark, List.filterMap_append,
    List.filterMap_cons_some hmark'] at hmarks
  obtain ⟨before, rest, rfl, hbefore, hrest⟩ := sublist_split hmarks
  obtain ⟨l, after, rfl, -, hafter⟩ := sublist_split hrest
  obtain ⟨holderNode, hholder⟩ := Option.ne_none_iff_exists'.mp (h.used holder List.mem_cons_self)
  rw [hrule] at hwidth
  obtain ⟨hpos, hused, hused'⟩ := usedDelims_spec (hwidths _) hmin hwidth hwidth'
  exact ⟨openerInl, closerInl, before, l, after, holderNode, openerNode, closerNode, sign, sign',
    rfl, hmark, hmark', hbefore, hafter, hpos, h.stacked, ⟨by simp, hnode⟩, ⟨by simp, hnode'⟩,
    h.forest, h.apart, h.used, h.held, h.sorted, hholder, hrun, hrun', hused, hused'⟩

/-! ### The inline made -/

variable {openerInl closerInl inlineNode openerNum closerNum useDelims openerWidth closerWidth : ℕ}
  {before l after : List ℕ} {holderNode openerNode closerNode made : Node K} {sign sign' : UInt8}

/-- What is listed after an insertion stands in source order. -/
lemma sorted_inserted
    (h : Pair s stack pool o c openerInl closerInl holder ids before l after holderNode openerNode
      closerNode sign sign' openerWidth closerWidth useDelims)
    (hmade : Inserted s s' openerInl closerInl holder inlineNode ids before l after openerNode
      closerNode made openerNum closerNum useDelims) :
    (before ++ (leftover openerNum openerInl ++
      inlineNode :: (leftover closerNum closerInl ++ after))).Pairwise fun p q =>
        ∀ n ∈ s'.nodes p, ∀ m ∈ s'.nodes q, n.place.stop ≤ m.place.start := by
  have hold := h.list.nodup
  have hnew := hmade.outer.nodup
  simp only [List.nodup_append, List.nodup_cons, List.mem_append, List.mem_cons] at hold hnew
  have hbefore : ∀ p ∈ before, s'.nodes p = s.nodes p := fun p hp =>
    hmade.rest p (by grind) (by grind) (by grind)
  have hafter : ∀ p ∈ after, s'.nodes p = s.nodes p := fun p hp =>
    hmade.rest p (by grind) (by grind) (by grind)
  have hsorted := List.pairwise_append.mp h.sorted
  have hbelow : ∀ p ∈ before, ∀ n ∈ s'.nodes p, n.place.stop ≤ openerNode.place.start := by
    intro p hp n hn
    rw [hbefore p hp] at hn
    exact hsorted.2.2 p hp openerInl (by simp) n hn _ h.openerRun.stored
  have hbeyond : ∀ p ∈ after, ∀ n ∈ s'.nodes p, closerNode.place.stop ≤ n.place.start := by
    intro p hp n hn
    rw [hafter p hp] at hn
    have hrest := (List.pairwise_append.mp (List.pairwise_cons.mp hsorted.2.1).2).2.1
    exact (List.pairwise_cons.mp hrest).1 p hp _ h.closerRun.stored n hn
  have hopener : ∀ p ∈ leftover openerNum openerInl, ∀ n ∈ s'.nodes p,
      n.place = ⟨openerNode.place.start, made.place.start⟩ := by
    intro p hp n hn
    rw [eq_of_mem_leftover hp, hmade.opener] at hn
    split at hn
    next => cases hn
    next => exact (Option.some_inj.mp hn) ▸ rfl
  have hcloser : ∀ p ∈ leftover closerNum closerInl, ∀ n ∈ s'.nodes p,
      n.place = ⟨made.place.stop, closerNode.place.stop⟩ := by
    intro p hp n hn
    rw [eq_of_mem_leftover hp, hmade.closer] at hn
    split at hn
    next => cases hn
    next => exact (Option.some_inj.mp hn) ▸ rfl
  have hinline : ∀ n ∈ s'.nodes inlineNode, n.place = made.place := by
    intro n hn
    rw [hmade.node] at hn
    exact (Option.some_inj.mp hn) ▸ rfl
  have hstart := hmade.start
  have hstop := hmade.stop
  have hordered := hmade.ordered
  -- the two runs and the inline between them stand where the two runs stood
  have hwithin : ∀ p ∈ leftover openerNum openerInl ++ inlineNode :: leftover closerNum closerInl,
      ∀ n ∈ s'.nodes p, openerNode.place.start ≤ n.place.start ∧
        n.place.stop ≤ closerNode.place.stop := by
    intro p hp n hn
    rcases List.mem_append.mp hp with hp | hp
    · rw [hopener p hp n hn]
      exact ⟨le_rfl, by dsimp only; omega⟩
    · rcases List.mem_cons.mp hp with rfl | hp
      · rw [hinline n hn]
        omega
      · rw [hcloser p hp n hn]
        exact ⟨by dsimp only; omega, le_rfl⟩
  have hmid : (leftover openerNum openerInl ++ inlineNode :: leftover closerNum closerInl).Pairwise
      fun p q => ∀ n ∈ s'.nodes p, ∀ m ∈ s'.nodes q, n.place.stop ≤ m.place.start := by
    have hone : ∀ num p, (leftover num p).Pairwise
        fun p q => ∀ n ∈ s'.nodes p, ∀ m ∈ s'.nodes q, n.place.stop ≤ m.place.start := by
      intro num p
      rw [leftover]
      split
      next => exact List.Pairwise.nil
      next => exact List.pairwise_singleton _ p
    refine List.pairwise_append.mpr ⟨hone _ _, List.pairwise_cons.mpr ⟨?_, hone _ _⟩, ?_⟩
    · intro q hq n hn m hm
      rw [hinline n hn, hcloser q hq m hm]
    · intro p hp q hq n hn m hm
      rw [hopener p hp n hn]
      rcases List.mem_cons.mp hq with rfl | hq
      · rw [hinline m hm]
      · rw [hcloser q hq m hm]
        exact hordered
  have hlist : before ++ (leftover openerNum openerInl ++
      inlineNode :: (leftover closerNum closerInl ++ after)) =
      before ++ ((leftover openerNum openerInl ++ inlineNode :: leftover closerNum closerInl) ++
        after) := by simp
  rw [hlist]
  refine List.pairwise_append.mpr ⟨?_, List.pairwise_append.mpr ⟨hmid, ?_, ?_⟩, ?_⟩
  · refine hsorted.1.imp_of_mem fun {p q} hp hq hpq => ?_
    rw [hbefore p hp, hbefore q hq]
    exact hpq
  · have hrest := (List.pairwise_append.mp (List.pairwise_cons.mp hsorted.2.1).2).2.1
    refine (List.pairwise_cons.mp hrest).2.imp_of_mem fun {p q} hp hq hpq => ?_
    rw [hafter p hp, hafter q hq]
    exact hpq
  · intro p hp q hq n hn m hm
    exact (hwithin p hp n hn).2.trans (hbeyond q hq m hm)
  · intro p hp q hq n hn m hm
    rcases List.mem_append.mp hq with hq | hq
    · exact (hbelow p hp n hn).trans (hwithin q hq m hm).1
    · rw [hbefore p hp] at hn
      rw [hafter q hq] at hm
      exact hsorted.2.2 p hp q (by simp [hq]) n hn m hm

/-- A run's entry, where enough is left of it to pair again. -/
def staying (entry num minimumWidth : ℕ) : List ℕ :=
  if Leaves num minimumWidth then [] else [entry]

lemma mem_staying {e entry num minimumWidth : ℕ} (h : e ∈ staying entry num minimumWidth) :
    e = entry ∧ num ≠ 0 ∧ minimumWidth ≤ num := by
  rw [staying] at h
  split at h
  next => cases h
  next hstays =>
    rw [Leaves, not_or, not_lt] at hstays
    exact ⟨List.mem_singleton.mp h, hstays⟩

lemma staying_sublist (entry num minimumWidth : ℕ) :
    (staying entry num minimumWidth).Sublist [entry] := by
  rw [staying]
  split
  · exact List.nil_sublist _
  · exact List.Sublist.refl _

lemma remaining_split {X Y : List ℕ} {e num minimumWidth : ℕ} (h : (X ++ e :: Y).Nodup) :
    remaining (X ++ e :: Y) e num minimumWidth = X ++ (staying e num minimumWidth ++ Y) := by
  have hX : e ∉ X := fun hin =>
    (List.nodup_append.mp h).2.2 e hin e List.mem_cons_self rfl
  rw [remaining, staying]
  split
  next => rw [List.erase_append_right _ hX, List.erase_cons_head, List.nil_append]
  next => rw [List.singleton_append]

/-- The mark that stays is the run that is left. -/
lemma marks_staying {entries : ℕ → Entry} {e p num minimumWidth : ℕ}
    (hmark : markOf entries e = some p) :
    ((staying e num minimumWidth).filterMap (markOf entries)).Sublist (leftover num p) := by
  rw [staying]
  split
  next => exact List.nil_sublist _
  next hstays =>
    rw [Leaves, not_or] at hstays
    rw [List.filterMap_cons_some hmark, List.filterMap_nil, leftover, if_neg hstays.1]

/-- A run elsewhere in the list is what it was. -/
lemma Run.kept {p width : ℕ} {node : Node K} (h : Run s p node sign width)
    (hmade : Inserted s s' openerInl closerInl holder inlineNode ids before l after openerNode
      closerNode made openerNum closerNum useDelims)
    (hp : p ≠ inlineNode ∧ p ≠ openerInl ∧ p ≠ closerInl ∧ p ≠ holder) :
    Run s' p node sign width :=
  ⟨(hmade.rest p hp.1 hp.2.1 hp.2.2.1).trans h.stored, h.literal, h.place,
    (hmade.ends p hp.2.2.2 hp.1).trans h.childless⟩

/-- An insertion leaves the range ready: every mark that stays on the stack is in the list. -/
lemma Ready.paired (h : Ready s E bottom below (A ++ o :: (B ++ c :: C)) above pool holder ids list)
    (hB : ∀ e ∈ B, (s.entries e).kind = .boundary)
    (hrule : (s.entries o).rule = (s.entries c).rule)
    (hmark : markOf s.entries o = some openerInl) (hmark' : markOf s.entries c = some closerInl)
    (hbefore : (A.filterMap (markOf s.entries)).Sublist before)
    (hafter : (C.filterMap (markOf s.entries)).Sublist after)
    (hpair : Pair s stack pool o c openerInl closerInl holder ids before l after holderNode
      openerNode closerNode sign sign' openerWidth closerWidth useDelims)
    (hmade : Inserted s s' openerInl closerInl holder inlineNode ids before l after openerNode
      closerNode made (openerWidth - useDelims) (closerWidth - useDelims) useDelims)
    (hbare : ∀ e, (s'.entries e).bare = (s.entries e).bare)
    (hstacked : Stacked s' (below ++ ((A ++ (staying o (openerWidth - useDelims)
      (E.specOf (s.entries c).rule).minimumWidth ++ (B ++ (staying c (closerWidth - useDelims)
        (E.specOf (s.entries c).rule).minimumWidth ++ C)))) ++ above)) pool') :
    ∃ ids', Ready s' E bottom below (A ++ (staying o (openerWidth - useDelims)
        (E.specOf (s.entries c).rule).minimumWidth ++ (B ++ (staying c (closerWidth - useDelims)
          (E.specOf (s.entries c).rule).minimumWidth ++ C)))) above pool' holder ids'
        (before ++ (leftover (openerWidth - useDelims) openerInl ++
          inlineNode :: (leftover (closerWidth - useDelims) closerInl ++ after))) ∧
      Shortened [openerInl, closerInl] (leaves s ids) (leaves s' ids') := by
  obtain ⟨ids', hforest, hapart, hused, hleaves⟩ := hmade.leaves
  have hold := hpair.list.nodup
  have hnew := hmade.outer.nodup
  have hheld := hpair.list.apart
  simp only [List.nodup_append, List.nodup_cons, List.mem_append, List.mem_cons, not_or]
    at hold hnew hheld
  have hboundaries : B.filterMap (markOf s.entries) = [] := by
    refine List.filterMap_eq_nil_iff.mpr fun e he => ?_
    rw [markOf, hB e he]
    rfl
  have hsub : (A ++ (staying o (openerWidth - useDelims)
      (E.specOf (s.entries c).rule).minimumWidth ++ (B ++ (staying c (closerWidth - useDelims)
        (E.specOf (s.entries c).rule).minimumWidth ++ C)))).Sublist (A ++ o :: (B ++ c :: C)) :=
    (List.Sublist.refl A).append ((staying_sublist _ _ _).append
      ((List.Sublist.refl B).append ((staying_sublist _ _ _).append (List.Sublist.refl C))))
  refine ⟨ids', ⟨hstacked, h.fit.sublist hbare hsub, hforest, hapart, hused, hmade.outer,
    sorted_inserted hpair hmade, ?_, fun e he hkind => ?_⟩, ?_⟩
  · rw [markOf_congr hbare, List.filterMap_append, List.filterMap_append, List.filterMap_append,
      List.filterMap_append, hboundaries, List.nil_append]
    exact hbefore.append ((marks_staying hmark).append
      (((marks_staying hmark').append hafter).cons inlineNode))
  · rw [bare_kind (hbare e)] at hkind
    rw [bare_node (hbare e), bare_rule (hbare e)]
    have helse : ∀ e ∈ A ++ o :: (B ++ c :: C), (s.entries e).kind = .marker →
        (∀ p, (s.entries e).node = some p → p ∈ before ∨ p ∈ after) →
        ∃ p node sign width, (s.entries e).node = some p ∧ Run s' p node sign width ∧
          (E.specOf (s.entries e).rule).minimumWidth ≤ width := by
      intro e he hkind hin
      obtain ⟨p, node, sign, width, hnode, hrun, hwidth⟩ := h.runs e he hkind
      refine ⟨p, node, sign, width, hnode, hrun.kept hmade ?_, hwidth⟩
      have hp := hin p hnode
      grind
    have hmarked : ∀ m : List ℕ, e ∈ m → ∀ p, (s.entries e).node = some p →
        p ∈ m.filterMap (markOf s.entries) := by
      intro m hm p hp
      refine List.mem_filterMap.mpr ⟨e, hm, ?_⟩
      rw [markOf, if_pos hkind, hp]
    rcases List.mem_append.mp he with hA | he
    · exact helse e (by simp [hA]) hkind fun p hp => Or.inl (hbefore.mem (hmarked A hA p hp))
    rcases List.mem_append.mp he with ho | he
    · obtain ⟨rfl, hne, hmin⟩ := mem_staying ho
      rw [markOf, if_pos hkind] at hmark
      have hstored := hmade.opener
      rw [if_neg hne] at hstored
      refine ⟨openerInl, _, sign, openerWidth - useDelims, hmark, ⟨hstored, ?_, ?_, ?_⟩,
        by rw [hrule]; exact hmin⟩
      · rw [hpair.openerRun.literal, Option.map_some, List.take_replicate,
          Nat.min_eq_left (Nat.sub_le _ _)]
      · exact hmade.start
      · rw [hmade.ends openerInl (by grind) (by grind [leftover])]
        exact hpair.openerRun.childless
    rcases List.mem_append.mp he with hB' | he
    · rw [hB e hB'] at hkind
      cases hkind
    rcases List.mem_append.mp he with hc | hC
    · obtain ⟨rfl, hne, hmin⟩ := mem_staying hc
      rw [markOf, if_pos hkind] at hmark'
      have hstored := hmade.closer
      rw [if_neg hne] at hstored
      refine ⟨closerInl, _, sign', closerWidth - useDelims, hmark', ⟨hstored, ?_, ?_, ?_⟩, hmin⟩
      · rw [hpair.closerRun.literal, Option.map_some, List.take_replicate,
          Nat.min_eq_left (Nat.sub_le _ _)]
      · exact hmade.stop.symm
      · rw [hmade.ends closerInl (by grind) (by grind [leftover])]
        exact hpair.closerRun.childless
    · exact helse e (by simp [hC]) hkind fun p hp => Or.inr (hafter.mem (hmarked C hC p hp))
  · rw [hleaves]
    refine shortened_cut (by simp) (by simp) fun leaf hleaf heq => ?_
    obtain ⟨p, -, hp⟩ := List.mem_filterMap.mp hleaf
    obtain ⟨bytes, hbytes, rfl⟩ := Option.map_eq_some_iff.mp hp
    dsimp only at heq ⊢
    rw [heq, hpair.closerRun.stored, Option.bind_some, hpair.closerRun.literal,
      Option.some_inj] at hbytes
    rw [← hbytes, List.drop_replicate, List.length_replicate, List.take_replicate,
      Nat.min_eq_left (Nat.sub_le _ _)]

end Pair

/-! ### What a turn leaves -/

/-- The range is some of what it was, with its last boundary; the leaves of its marks are shortened,
and no other node is written. -/
structure Turned (s s' : State K) (marks range range' ids ids' : List ℕ) : Prop where
  bare : ∀ e, (s'.entries e).bare = (s.entries e).bare
  sub : range'.Sublist range
  boundary : kept s.entries false range' = kept s.entries false range
  leaves : Shortened marks (leaves s ids) (leaves s' ids')
  rest : ∀ p ∉ marks, s.nodes p ≠ none → s'.nodes p = s.nodes p

variable {s'' : State K} {marks range'' ids' ids'' : List ℕ}

lemma Turned.trans (h : Turned s s' marks range range' ids ids')
    (h' : Turned s' s'' marks range' range'' ids' ids'') :
    Turned s s'' marks range range'' ids ids'' := by
  refine ⟨fun e => (h'.bare e).trans (h.bare e), h'.sub.trans h.sub, ?_, h.leaves.trans h'.leaves,
    fun p hp hused => ?_⟩
  · rw [← h.boundary, ← kept_congr h.bare, h'.boundary, kept_congr h.bare]
  · have hsame := h.rest p hp hused
    rw [← hsame]
    exact h'.rest p hp (by rw [hsame]; exact hused)

lemma Unmoved.turned (h : Unmoved s s') (hsub : range'.Sublist range)
    (hkept : kept s.entries false range' = kept s.entries false range) :
    Turned s s' marks range range' ids ids := by
  refine ⟨h.bare, hsub, hkept, ?_, fun p _ _ => by rw [h.nodes]⟩
  rw [leaves, leaves, h.nodes]
  exact .refl _ _

lemma kept_append (entries : ℕ → Entry) (X Y : List ℕ) : kept entries false (X ++ Y) =
    if kept entries false Y = [] then kept entries false X else kept entries false Y := by
  simp only [kept, Bool.false_eq_true, if_false, List.filter_append, List.getLast?_append]
  cases (Y.filter fun e => (entries e).kind = .boundary).getLast? <;> simp

/-- What is kept of a part of the range keeps the range's last boundary. -/
lemma kept_middle (entries : ℕ → Entry) (X B Y : List ℕ) :
    kept entries false (X ++ (kept entries false B ++ Y)) =
      kept entries false (X ++ (B ++ Y)) := by
  have hself : kept entries false (kept entries false B) = kept entries false B := by
    simp only [kept, Bool.false_eq_true, if_false]
    cases hlast : (B.filter fun e => (entries e).kind = .boundary).getLast? with
    | none => rfl
    | some e =>
      have he := (List.mem_filter.mp (List.mem_of_getLast? hlast)).2
      simp only [decide_eq_true_eq] at he
      simp [he]
  simp only [kept_append, hself]

/-- Entries that are no boundaries do not matter to what is kept. -/
lemma kept_of_filter {entries : ℕ → Entry} {X Y : List ℕ}
    (h : X.filter (fun e => (entries e).kind = .boundary) =
      Y.filter fun e => (entries e).kind = .boundary) :
    kept entries false X = kept entries false Y := by
  simp only [kept, Bool.false_eq_true, if_false]
  rw [h]

/-- The signs left of a mark. -/
def marked (s : State K) (e : ℕ) : ℕ :=
  ((((markOf s.entries e).bind s.nodes).bind (·.literal)).getD []).length

/-- The entries from the closer on and the signs left of their marks: every turn leaves less. -/
def weight (s : State K) : List ℕ → ℕ
  | [] => 0
  | e :: l => marked s e + 1 + weight s l

lemma weight_congr {l : List ℕ} (h : ∀ e ∈ l, marked s' e = marked s e) :
    weight s' l = weight s l := by
  induction l with
  | nil => rfl
  | cons e l ih =>
    rw [weight, weight, h e List.mem_cons_self, ih fun x hx => h x (List.mem_cons_of_mem e hx)]

lemma Unmoved.marked (h : Unmoved s s') (e : ℕ) : marked s' e = marked s e := by
  rw [Delimiter.marked, Delimiter.marked, markOf_congr h.bare, h.nodes]

end MarkdownCore.Delimiter
