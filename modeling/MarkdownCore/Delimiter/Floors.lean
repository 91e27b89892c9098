import MarkdownCore.Delimiter.PairingRun

/-!
# The floors and the plain walk

A search that finds no opener leaves a floor for the searches of its rule and residue after it. The
walk that goes back to the last boundary every time pairs the same, but where a run that both opens
and closes left the floor and the search after it is of one that only closes: the rule of three
holds an opener from the first that it does not hold from the second.
-/

namespace MarkdownCore.Delimiter

variable {K : Type}

namespace State

/-- One turn of the pairing when every search goes back to the last boundary. -/
def plainStep (s : State K) (E : Elements K) (fuel : ℕ) (floors : Floors) (closer : ℕ) :
    Option (State K × Floors × Option ℕ) :=
  let entry := s.entries closer
  let floors := floors.pass entry
  if entry.canClose = false then some (s, floors, entry.next)
  else
    let spec := E.specOf entry.rule
    match s.findOpener spec entry (floors.boundary spec) fuel entry.previous with
    | some opener => (s.pairFound E fuel opener closer).map fun r => (r.1, floors, r.2)
    | none => some (if entry.canOpen then s else s.removeDelimiter closer, floors, entry.next)

def plainRange (E : Elements K) (fuel : ℕ) (after : Option ℕ) :
    ℕ → State K → Floors → Option ℕ → Option (State K)
  | 0, _, _, _ => none
  | turns + 1, s, floors, closer =>
    if closer = after then some s
    else closer.bind fun c =>
      (s.plainStep E fuel floors c).bind fun r => plainRange E fuel after turns r.1 r.2.1 r.2.2

end State

/-- A run that only closes may pair with one that only opens, and a run of its rule and residue that
does both may not. -/
def Hidden (spec : RuleSpec K) (opener failed closer : Entry) : Prop :=
  spec.ruleOfThree = true ∧ opener.rule = closer.rule ∧ failed.rule = closer.rule ∧
    (opener.canOpen = true ∧ opener.canClose = false) ∧
    (failed.canOpen = true ∧ failed.canClose = true) ∧
    (closer.canOpen = false ∧ closer.canClose = true) ∧
    failed.length % 3 = closer.length % 3 ∧ closer.length % 3 ≠ 0 ∧
    (opener.length + closer.length) % 3 = 0

/-- What one closer may pair with and another of its rule and residue may not is hidden from it. -/
lemma hidden_of_admits {spec : RuleSpec K} {opener failed closer : Entry}
    (hrule : failed.rule = closer.rule) (hlength : failed.length % 3 = closer.length % 3)
    (hfailed : failed.canClose = true) (hcloser : closer.canClose = true)
    (hnot : admits spec opener failed = false) (hadmits : admits spec opener closer = true) :
    Hidden spec opener failed closer := by
  have hsum : (opener.length + failed.length) % 3 = (opener.length + closer.length) % 3 := by omega
  simp only [admits, hrule, hlength, hsum] at hnot hadmits
  simp only [Hidden, hrule, hfailed, hcloser, hlength]
  revert hnot hadmits
  cases spec.ruleOfThree <;> cases opener.canOpen <;> cases opener.canClose <;>
    cases failed.canOpen <;> cases closer.canOpen <;> simp <;> grind

variable {s s' : State K} {E : Elements K} {bottom holder : ℕ} {entries : ℕ → Entry}
  {below range above pool ids list marks seen done done' rest rest' : List ℕ} {c : ℕ}
  {floors floors' : Floors}

lemma admits_congr {spec : RuleSpec K} {a b a' b' : Entry} (ha : a'.bare = a.bare)
    (hb : b'.bare = b.bare) : admits spec a' b' = admits spec a b := by
  simp only [admits, bare_canOpen ha, bare_rule ha, bare_canClose ha, bare_length ha,
    bare_rule hb, bare_canOpen hb, bare_length hb]

/-! ### A floor higher up -/

lemma takeWhile_prefix_of_imp {α : Type} {p q : α → Bool} {l : List α}
    (h : ∀ a, p a = true → q a = true) : l.takeWhile p <+: l.takeWhile q := by
  induction l with
  | nil => exact List.prefix_rfl
  | cons a l ih =>
    rw [List.takeWhile_cons, List.takeWhile_cons]
    by_cases hp : p a = true
    · rw [if_pos hp, if_pos (h a hp)]
      exact (List.prefix_cons_inj a).mpr ih
    · rw [if_neg hp]
      exact List.nil_prefix

/-- What is not below a floor is not passed over. -/
lemma mem_takeWhile_of_ordered
    (hordered : done.Pairwise fun a b => (entries a).position ≤ (entries b).position) {o floor : ℕ}
    (ho : o ∈ done) (hfloor : floor ≤ (entries o).position) :
    o ∈ done.reverse.takeWhile fun e => floor ≤ (entries e).position := by
  obtain ⟨A, B, rfl⟩ := List.append_of_mem ho
  have hB := (List.pairwise_cons.mp (List.pairwise_append.mp hordered).2.1).1
  have hreverse : (A ++ o :: B).reverse = B.reverse ++ o :: A.reverse := by simp
  rw [hreverse, List.takeWhile_append_of_pos, List.takeWhile_cons,
    if_pos (decide_eq_true hfloor)]
  · simp
  · intro e he
    exact decide_eq_true (hfloor.trans (hB e (List.mem_reverse.mp he)))

/-- A floor that hides no opener does not matter to a search. -/
lemma openerOf_floor {spec : RuleSpec K} {closer : Entry} {low high : ℕ} (hle : low ≤ high)
    (hordered : done.Pairwise fun a b => (entries a).position ≤ (entries b).position)
    (hhides : ∀ o ∈ done, low ≤ (entries o).position → admits spec (entries o) closer = true →
      high ≤ (entries o).position) :
    openerOf entries spec closer high done = openerOf entries spec closer low done := by
  have hpre : (done.reverse.takeWhile fun e => decide (high ≤ (entries e).position)) <+:
      done.reverse.takeWhile fun e => decide (low ≤ (entries e).position) :=
    takeWhile_prefix_of_imp fun a ha => decide_eq_true (hle.trans (of_decide_eq_true ha))
  obtain ⟨t, ht⟩ := hpre
  rw [openerOf, openerOf, ← ht, List.find?_append]
  cases hhigh : (done.reverse.takeWhile fun e => decide (high ≤ (entries e).position)).find?
      fun e => admits spec (entries e) closer with
  | some o => rfl
  | none =>
    rw [Option.none_or]
    cases htail : t.find? fun e => admits spec (entries e) closer with
    | none => rfl
    | some o =>
      have hadmits := List.find?_some htail
      have hin : o ∈ done.reverse.takeWhile fun e => decide (low ≤ (entries e).position) := by
        rw [← ht]
        exact List.mem_append_right _ (List.mem_of_find?_eq_some htail)
      have hlow := List.mem_takeWhile_imp (p := fun e => decide (low ≤ (entries e).position)) hin
      have ho := List.mem_reverse.mp ((List.takeWhile_prefix _).sublist.mem hin)
      have hmem := mem_takeWhile_of_ordered hordered ho
        (hhides o ho (of_decide_eq_true hlow) hadmits)
      exact absurd hadmits (List.find?_eq_none.mp hhigh o hmem)

/-! ### What the floors remember -/

/-- The floors over the entries seen and those to be paired: what stands below one is below the last
boundary too, or was refused by an entry of the floor's rule and residue that closes. -/
structure Remembered (f : Floors) (entries : ℕ → Entry) (E : Elements K)
    (seen done rest : List ℕ) : Prop where
  within : done.Sublist seen
  ordered : (seen ++ rest).Pairwise fun a b => (entries a).position ≤ (entries b).position
  reached : ∀ e ∈ rest, f.wordBottom ≤ (entries e).position ∧ f.affixBottom ≤ (entries e).position ∧
    ∀ m r, f.openersBottom m r ≤ (entries e).position
  failed : ∀ m r, ∀ o ∈ done, f.boundary (E.specOf r) ≤ (entries o).position →
    (entries o).position < f.openersBottom m r → ∃ F, [o, F].Sublist seen ∧
      (entries F).rule = r ∧ (entries F).length % 3 = m ∧ (entries F).canClose = true ∧
      admits (E.specOf r) (entries o) (entries F) = false

lemma boundary_congr {f g : Floors} (spec : RuleSpec K) (hword : f.wordBottom = g.wordBottom)
    (haffix : f.affixBottom = g.affixBottom) : f.boundary spec = g.boundary spec := by
  rw [Floors.boundary, Floors.boundary, hword, haffix]

/-- A boundary only raises the floors. -/
lemma Remembered.pass (h : Remembered floors entries E seen done (c :: rest)) :
    Remembered (floors.pass (entries c)) entries E seen done (c :: rest) := by
  obtain ⟨hword, haffix, hopeners⟩ := h.reached c List.mem_cons_self
  have hrest := (List.pairwise_cons.mp (List.pairwise_append.mp h.ordered).2.1).1
  have hpass : (floors.pass (entries c)).openersBottom = floors.openersBottom ∧
      floors.wordBottom ≤ (floors.pass (entries c)).wordBottom ∧
      floors.affixBottom ≤ (floors.pass (entries c)).affixBottom ∧
      (floors.pass (entries c)).wordBottom ≤ (entries c).position ∧
      (floors.pass (entries c)).affixBottom ≤ (entries c).position := by
    rw [Floors.pass]
    split
    next => exact ⟨rfl, hword, le_rfl, le_rfl, haffix⟩
    next =>
      split
      next => exact ⟨rfl, le_rfl, haffix, hword, le_rfl⟩
      next => exact ⟨rfl, le_rfl, le_rfl, hword, haffix⟩
  obtain ⟨hsame, hword', haffix', hwordc, haffixc⟩ := hpass
  have hle : ∀ e ∈ c :: rest, (entries c).position ≤ (entries e).position := by
    intro e he
    rcases List.mem_cons.mp he with rfl | he
    · exact le_rfl
    · exact hrest e he
  refine ⟨h.within, h.ordered, fun e he => ⟨hwordc.trans (hle e he), haffixc.trans (hle e he),
    fun m r => ?_⟩, fun m r o ho hboundary hbelow => ?_⟩
  · rw [hsame]
    exact (hopeners m r).trans (hle e he)
  · rw [hsame] at hbelow
    refine h.failed m r o ho (le_trans ?_ hboundary) hbelow
    rw [Floors.boundary, Floors.boundary]
    split
    next => exact max_le (haffix'.trans (le_max_left _ _)) (hword'.trans (le_max_right _ _))
    next => exact haffix'

/-- A search does not miss what no run of its rule and residue hides. -/
lemma Remembered.search (h : Remembered floors entries E seen done (c :: rest))
    (hshown : ∀ o F, [o, F, c].Sublist (seen ++ c :: rest) →
      ¬Hidden (E.specOf (entries c).rule) (entries o) (entries F) (entries c))
    (hclose : (entries c).canClose = true) :
    openerOf entries (E.specOf (entries c).rule) (entries c)
        (floors.bottom (E.specOf (entries c).rule) (entries c)) done =
      openerOf entries (E.specOf (entries c).rule) (entries c)
        (floors.boundary (E.specOf (entries c).rule)) done := by
  refine openerOf_floor (le_max_right _ _)
    ((List.pairwise_append.mp h.ordered).1.sublist h.within) fun o ho hboundary hadmits => ?_
  refine max_le ?_ hboundary
  by_contra hbelow
  rw [not_le] at hbelow
  obtain ⟨F, hbetween, hrule, hlength, hcloses, hnot⟩ := h.failed _ _ o ho hboundary hbelow
  refine hshown o F ?_ (hidden_of_admits hrule hlength hcloses hclose hnot hadmits)
  exact hbetween.append (List.singleton_sublist.mpr List.mem_cons_self)

/-- The next turn's floors: those of this one, or the closer's too where it found no opener. -/
lemma Remembered.next (h : Remembered floors entries E seen done (c :: rest))
    (hsub : (done' ++ rest').Sublist (done ++ c :: rest)) (hrest : rest' = rest ∨ rest' = c :: rest)
    (hfloors : floors' = floors ∨ rest' = rest ∧ floors' = floors.fail (entries c) ∧
      (entries c).canClose = true ∧ openerOf entries (E.specOf (entries c).rule) (entries c)
        (floors.boundary (E.specOf (entries c).rule)) done = none) :
    ∃ seen', seen' ++ rest' = seen ++ c :: rest ∧
      Remembered floors' entries E seen' done' rest' := by
  have hdone : ∃ seen', seen' ++ rest' = seen ++ c :: rest ∧ done'.Sublist seen' ∧
      (rest' = rest → seen' = seen ++ [c] ∧ done'.Sublist (done ++ [c])) ∧
      (rest' = c :: rest → seen' = seen ∧ done'.Sublist done) := by
    rcases hrest with rfl | rfl
    · have hregroup : done ++ c :: rest' = (done ++ [c]) ++ rest' := by simp
      rw [hregroup] at hsub
      have hdone := (List.append_sublist_append_right _).mp hsub
      exact ⟨seen ++ [c], by simp, hdone.trans (h.within.append (List.Sublist.refl _)),
        fun _ => ⟨rfl, hdone⟩, fun heq => absurd heq (by simp)⟩
    · have hdone := (List.append_sublist_append_right _).mp hsub
      exact ⟨seen, rfl, hdone.trans h.within, fun heq => absurd heq (by simp),
        fun _ => ⟨rfl, hdone⟩⟩
  obtain ⟨seen', hseen, hwithin, hpassed, hstays⟩ := hdone
  have hreached : ∀ e ∈ rest', e ∈ c :: rest := by
    rcases hrest with rfl | rfl
    · exact fun e he => List.mem_cons_of_mem c he
    · exact fun e he => he
  have hordered := h.ordered
  rw [← hseen] at hordered
  -- what the floors of this turn hide, the next turn's hide
  have hold : ∀ m r, ∀ o ∈ done', floors.boundary (E.specOf r) ≤ (entries o).position →
      (entries o).position < floors.openersBottom m r → ∃ F, [o, F].Sublist seen' ∧
        (entries F).rule = r ∧ (entries F).length % 3 = m ∧ (entries F).canClose = true ∧
        admits (E.specOf r) (entries o) (entries F) = false := by
    intro m r o ho hboundary hbelow
    rcases hrest with heq | heq
    · obtain ⟨rfl, hdone⟩ := hpassed heq
      rcases List.mem_append.mp (hdone.mem ho) with ho | ho
      · obtain ⟨F, hbetween, hF⟩ := h.failed m r o ho hboundary hbelow
        exact ⟨F, hbetween.trans (List.sublist_append_left _ _), hF⟩
      · rw [List.mem_singleton.mp ho] at hbelow
        exact absurd hbelow (not_lt.mpr ((h.reached c List.mem_cons_self).2.2 m r))
    · obtain ⟨rfl, hdone⟩ := hstays heq
      exact h.failed m r o (hdone.mem ho) hboundary hbelow
  refine ⟨seen', hseen, ?_⟩
  rcases hfloors with rfl | ⟨heq, rfl, hclose, hnone⟩
  · exact ⟨hwithin, hordered, fun e he => h.reached e (hreached e he), hold⟩
  · obtain ⟨rfl, hdone⟩ := hpassed heq
    have hrest' := (List.pairwise_cons.mp (List.pairwise_append.mp h.ordered).2.1).1
    refine ⟨hwithin, hordered, fun e he => ?_, fun m r o ho hboundary hbelow => ?_⟩
    · obtain ⟨hword, haffix, hopeners⟩ := h.reached e (hreached e he)
      refine ⟨hword, haffix, fun m r => ?_⟩
      rw [Floors.fail]
      dsimp only
      split
      next => exact hrest' e (heq ▸ he)
      next => exact hopeners m r
    · have hboundary' : floors.boundary (E.specOf r) ≤ (entries o).position := hboundary
      rw [Floors.fail] at hbelow
      dsimp only at hbelow
      split at hbelow
      next hsame =>
        obtain ⟨rfl, rfl⟩ := hsame
        have ho' : o ∈ done := by
          rcases List.mem_append.mp (hdone.mem ho) with ho | ho
          · exact ho
          · rw [List.mem_singleton.mp ho] at hbelow
            exact absurd hbelow (lt_irrefl _)
        refine ⟨c, ?_, rfl, rfl, hclose, ?_⟩
        · exact (List.singleton_sublist.mpr (h.within.mem ho')).append (List.Sublist.refl [c])
        · have hmem := mem_takeWhile_of_ordered
            ((List.pairwise_append.mp h.ordered).1.sublist h.within) ho' hboundary'
          exact Bool.eq_false_iff.mpr (List.find?_eq_none.mp hnone o hmem)
      next => exact hold m r o ho hboundary' hbelow

/-! ### The two pairings -/

/-- A turn over the floors and one of the plain walk do the same. -/
lemma Ready.plainStep (h : Ready s E bottom below (done ++ c :: rest) above pool holder ids list)
    (hE : Sound E) (hmarks : ∀ e ∈ done ++ c :: rest, ∀ p ∈ markOf s.entries e, p ∈ marks)
    (hmemory : Remembered floors s.entries E seen done (c :: rest))
    (hshown : ∀ o F, [o, F, c].Sublist (seen ++ c :: rest) →
      ¬Hidden (E.specOf (s.entries c).rule) (s.entries o) (s.entries F) (s.entries c))
    (hfloors : bottom ≤ floors.affixBottom) {fuel : ℕ}
    (hfuel : below.length + (done ++ c :: rest).length + list.length < fuel) {plain : Floors}
    (hplain : plain.wordBottom = floors.wordBottom ∧ plain.affixBottom = floors.affixBottom) :
    ∃ s' floors' plain' next, s.pairStep E fuel floors c = some (s', floors', next) ∧
      s.plainStep E fuel plain c = some (s', plain', next) ∧
      (plain'.wordBottom = floors'.wordBottom ∧ plain'.affixBottom = floors'.affixBottom) ∧
      bottom ≤ floors'.affixBottom ∧
      Turn s s' E bottom below (done ++ c :: rest) above marks holder ids list c rest next ∧
      ∀ done' rest', (done' ++ rest').Sublist (done ++ c :: rest) →
        rest' = rest ∨ rest' = c :: rest → next = (rest' ++ above).head? →
        ∃ seen', seen' ++ rest' = seen ++ c :: rest ∧
          Remembered floors' s.entries E seen' done' rest' := by
  obtain ⟨s', floors', next, heq, hfloors', hturn⟩ := h.pairStep hE hmarks hfloors hfuel
  have hmemory' := hmemory.pass
  have hplain' : (plain.pass (s.entries c)).wordBottom = (floors.pass (s.entries c)).wordBottom ∧
      (plain.pass (s.entries c)).affixBottom = (floors.pass (s.entries c)).affixBottom := by
    rw [Floors.pass, Floors.pass]
    split
    next => exact ⟨rfl, hplain.2⟩
    next =>
      split
      next => exact ⟨hplain.1, rfl⟩
      next => exact hplain
  have hsplit : below ++ ((done ++ c :: rest) ++ above) =
      (below ++ done) ++ c :: (rest ++ above) := by simp
  have hstacked := h.stacked
  rw [hsplit] at hstacked
  rw [State.pairStep] at heq
  rw [State.pairStep, State.plainStep]
  dsimp only at heq ⊢
  by_cases hclose : (s.entries c).canClose = false
  · rw [if_pos hclose, Option.some_inj, Prod.mk.injEq, Prod.mk.injEq] at heq
    obtain ⟨rfl, rfl, rfl⟩ := heq
    rw [if_pos hclose, if_pos hclose]
    exact ⟨s, _, _, _, rfl, rfl, hplain', hfloors', hturn, fun done' rest' hsub hrest _ =>
      hmemory'.next hsub hrest (Or.inl rfl)⟩
  · rw [if_neg hclose] at heq ⊢
    rw [if_neg hclose]
    rw [Bool.not_eq_false] at hclose
    have hpassed := pass_affixBottom hfloors (h.fit.above_bottom c (by simp))
    have hlow : bottom ≤ (floors.pass (s.entries c)).boundary (E.specOf (s.entries c).rule) :=
      le_boundary _ hpassed
    have hlength : (below ++ done).length < fuel := by
      rw [List.length_append] at hfuel ⊢
      omega
    have hfind : ∀ floor, bottom ≤ floor → s.findOpener (E.specOf (s.entries c).rule) (s.entries c)
        floor fuel (s.entries c).previous =
          openerOf s.entries (E.specOf (s.entries c).rule) (s.entries c) floor done := by
      intro floor hfloor
      rw [hstacked.previous_split, hstacked.findOpener _ _ _ hlength,
        openerOf_range fun e he => (h.fit.below_bottom e he).trans_le hfloor]
    have hsearch := hmemory'.search hshown hclose
    have hhigh := hfind ((floors.pass (s.entries c)).bottom (E.specOf (s.entries c).rule)
      (s.entries c)) (hlow.trans (le_max_right _ _))
    rw [hhigh, hsearch] at heq ⊢
    rw [boundary_congr _ hplain'.1 hplain'.2, hfind _ hlow]
    cases hopener : openerOf s.entries (E.specOf (s.entries c).rule) (s.entries c)
        ((floors.pass (s.entries c)).boundary (E.specOf (s.entries c).rule)) done with
    | some o =>
      rw [hopener] at heq
      dsimp only at heq ⊢
      obtain ⟨r, hr, heq⟩ := Option.map_eq_some_iff.mp heq
      rw [Prod.mk.injEq, Prod.mk.injEq] at heq
      obtain ⟨rfl, rfl, rfl⟩ := heq
      rw [hr]
      exact ⟨_, _, _, _, rfl, rfl, hplain', hfloors', hturn, fun done' rest' hsub hrest _ =>
        hmemory'.next hsub hrest (Or.inl rfl)⟩
    | none =>
      rw [hopener, Option.some_inj, Prod.mk.injEq, Prod.mk.injEq] at heq
      obtain ⟨rfl, rfl, rfl⟩ := heq
      refine ⟨_, _, _, _, rfl, rfl, hplain', hfloors', hturn, fun done' rest' hsub hrest hnext =>
        hmemory'.next hsub hrest (Or.inr ⟨?_, rfl, hclose, hopener⟩)⟩
      rcases hrest with rfl | rfl
      · rfl
      · rw [hstacked.next_split] at hnext
        have hnodup := (List.nodup_append.mp hstacked.nodup).1
        have hin := List.mem_of_mem_head? hnext
        exact absurd hin (List.nodup_cons.mp (List.nodup_append.mp hnodup).2.1).1

lemma Remembered.congr {entries' : ℕ → Entry} (h : Remembered floors entries E seen done rest)
    (hbare : ∀ e, (entries' e).bare = (entries e).bare) :
    Remembered floors entries' E seen done rest := by
  obtain ⟨hwithin, hordered, hreached, hfailed⟩ := h
  refine ⟨hwithin, ?_, ?_, ?_⟩
  · simpa only [bare_position (hbare _)] using hordered
  · simpa only [bare_position (hbare _)] using hreached
  · simpa only [bare_position (hbare _), bare_rule (hbare _), bare_length (hbare _),
      bare_canClose (hbare _), admits_congr (hbare _) (hbare _)] using hfailed

lemma hidden_congr {spec : RuleSpec K} {a b d a' b' d' : Entry} (ha : a'.bare = a.bare)
    (hb : b'.bare = b.bare) (hd : d'.bare = d.bare) (h : Hidden spec a' b' d') :
    Hidden spec a b d := by
  simpa only [Hidden, bare_rule ha, bare_rule hb, bare_rule hd, bare_canOpen ha, bare_canOpen hb,
    bare_canOpen hd, bare_canClose ha, bare_canClose hb, bare_canClose hd, bare_length ha,
    bare_length hb, bare_length hd] using h

/-- The two pairings of a range do the same, turn by turn. -/
lemma Ready.plainRange {turns : ℕ} (h : Ready s E bottom below (done ++ rest) above pool holder ids
      list) (hE : Sound E) (hmarks : ∀ e ∈ done ++ rest, ∀ p ∈ markOf s.entries e, p ∈ marks)
    (hbare : ∀ e, (s.entries e).bare = (entries e).bare)
    (hmemory : Remembered floors entries E seen done rest)
    (hshown : ∀ o F C, [o, F, C].Sublist (seen ++ rest) →
      ¬Hidden (E.specOf (entries C).rule) (entries o) (entries F) (entries C))
    (hfloors : bottom ≤ floors.affixBottom) {fuel : ℕ}
    (hfuel : below.length + (done ++ rest).length + list.length + weight s rest < fuel)
    {plain : Floors}
    (hplain : plain.wordBottom = floors.wordBottom ∧ plain.affixBottom = floors.affixBottom) :
    State.plainRange E fuel above.head? turns s plain (rest ++ above).head? =
      State.pairRange E fuel above.head? turns s floors (rest ++ above).head? := by
  induction turns generalizing s seen done rest pool ids list floors plain with
  | zero => rfl
  | succ turns ih =>
    rw [State.pairRange, State.plainRange]
    cases rest with
    | nil => rw [List.nil_append, if_pos rfl, if_pos rfl]
    | cons c rest =>
      have hfuel' : below.length + (done ++ c :: rest).length + list.length < fuel := by omega
      have hshown' : ∀ o F, [o, F, c].Sublist (seen ++ c :: rest) →
          ¬Hidden (E.specOf (s.entries c).rule) (s.entries o) (s.entries F) (s.entries c) := by
        intro o F hsub hhidden
        refine hshown o F c hsub ?_
        rw [← bare_rule (hbare c)]
        exact hidden_congr (hbare o) (hbare F) (hbare c) hhidden
      obtain ⟨s', floors', plain', next, hpair, hplainStep, hplain', hfloors', hturn, hnext⟩ :=
        h.plainStep hE hmarks (hmemory.congr hbare) hshown' hfloors hfuel' hplain
      obtain ⟨done', rest', pool', ids', list', hready, hturned, rfl, hrest, hweight, hlength⟩ :=
        hturn
      rw [List.cons_append, List.head?_cons, Option.bind_some, Option.bind_some, hpair, hplainStep,
        Option.bind_some, Option.bind_some]
      obtain ⟨seen', hseen, hmemory'⟩ := hnext done' rest' hturned.sub hrest rfl
      have hbare' : ∀ e, (s'.entries e).bare = (entries e).bare :=
        fun e => (hturned.bare e).trans (hbare e)
      have hshorter := hturned.sub.length_le
      have hmarks' : ∀ e ∈ done' ++ rest', ∀ p ∈ markOf s'.entries e, p ∈ marks := by
        rw [markOf_congr hturned.bare]
        exact fun e he => hmarks e (hturned.sub.mem he)
      have hfuel'' : below.length + (done' ++ rest').length + list'.length + weight s' rest' <
        fuel := by omega
      rw [ih hready hmarks' hbare' (hmemory'.congr fun e => (hbare e).symm)
        (by rw [hseen]; exact hshown) hfloors' hfuel'' hplain']

end MarkdownCore.Delimiter
