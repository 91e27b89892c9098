import MarkdownCore.Delimiter.Pairing

/-!
# The pairing of a whole range

Every turn of the pairing keeps the range ready and leaves less of it to do, so that the range is
paired to its end: nothing of the text is lost but the signs that the pairs use, and the stack is
left with what it held around the range and the range's last boundary.
-/

namespace MarkdownCore.Delimiter

variable {K : Type} {s s' : State K} {E : Elements K} {bottom holder : ℕ}
  {below range range' above pool pool' ids list marks A B C : List ℕ} {o c : ℕ}

/-- What the elements are promised to have: no rule's widest pair is narrower than its narrowest,
and a new node's slot is not in use. -/
structure Sound (E : Elements K) : Prop where
  widths : ∀ r, (E.specOf r).minimumWidth ≤ (E.specOf r).maximumWidth
  fresh : ∀ (s : State K) p, E.granted s = some p → s.nodes p = none

lemma erase_split {X Y : List ℕ} {e : ℕ} (h : (X ++ e :: Y).Nodup) :
    (X ++ e :: Y).erase e = X ++ Y := by
  have hX : e ∉ X := fun hin =>
    (List.nodup_append.mp h).2.2 e hin e List.mem_cons_self rfl
  rw [List.erase_append_right _ hX, List.erase_cons_head]

/-- A turn from a range to what is left of it, what is done and what is to be done. -/
structure Turn (s s' : State K) (E : Elements K) (bottom : ℕ) (below range above marks : List ℕ)
    (holder : ℕ) (ids list : List ℕ) (closer : ℕ) (todo : List ℕ) (next : Option ℕ) : Prop where
  ready : ∃ done rest pool ids' list',
    Ready s' E bottom below (done ++ rest) above pool holder ids' list' ∧
      Turned s s' marks range (done ++ rest) ids ids' ∧ next = (rest ++ above).head? ∧
      (rest = todo ∨ rest = closer :: todo) ∧
      weight s' rest < weight s (closer :: todo) ∧ list'.length ≤ list.length + 1

/-- A turn that moves no node. -/
lemma Ready.turn (done : List ℕ) {rest : List ℕ} {next : Option ℕ}
    (h : Ready s E bottom below range above pool holder ids list) (hunmoved : Unmoved s s')
    (hsub : (done ++ rest).Sublist range)
    (hkept : kept s.entries false (done ++ rest) = kept s.entries false range)
    (hstacked : Stacked s' (below ++ ((done ++ rest) ++ above)) pool')
    (hnext : next = (rest ++ above).head?) :
    Turn s s' E bottom below range above marks holder ids list c rest next := by
  refine ⟨done, rest, pool', ids, list, h.sublist hunmoved hsub hstacked,
    hunmoved.turned hsub hkept, hnext, Or.inl rfl, ?_, Nat.le_succ _⟩
  rw [weight_congr fun e _ => hunmoved.marked e, weight]
  omega

/-- A turn goes on from entries that left the range before it. -/
lemma Turn.after {t : State K} {todo : List ℕ} {next : Option ℕ} (hunmoved : Unmoved s t)
    (hsub : range'.Sublist range) (hkept : kept s.entries false range' = kept s.entries false range)
    (h : Turn t s' E bottom below range' above marks holder ids list c todo next) :
    Turn s s' E bottom below range above marks holder ids list c todo next := by
  obtain ⟨done, rest, pool, ids', list', hready, hturned, hnext, htodo, hweight, hlength⟩ := h
  refine ⟨done, rest, pool, ids', list', hready, (hunmoved.turned hsub hkept).trans hturned, hnext,
    htodo, ?_, hlength⟩
  rw [weight_congr (s := s) fun e _ => hunmoved.marked e] at hweight
  exact hweight

/-- A pair with nothing but boundaries between its two entries is made, or refused, or no storage is
there for it. -/
lemma Ready.insert (h : Ready s E bottom below (A ++ o :: (B ++ c :: C)) above pool holder ids list)
    (hE : Sound E) (hB : ∀ e ∈ B, (s.entries e).kind = .boundary)
    (hmarks : ∀ e ∈ A ++ o :: (B ++ c :: C), ∀ p ∈ markOf s.entries e, p ∈ marks)
    (ho : (s.entries o).canOpen = true) (hc : (s.entries c).canClose = true)
    (hrule : (s.entries o).rule = (s.entries c).rule)
    (hmin : (E.specOf (s.entries c).rule).minimumWidth ≠ 0) {fuel : ℕ}
    (hfuel : list.length < fuel) (kind : K) :
    ∃ s' next, s.insertDelimitedInline E.canContain E.specOf (E.granted s) fuel o c
        (s.usedDelims (E.specOf (s.entries c).rule) o c) kind = some (s', next) ∧
      Turn s s' E bottom below (A ++ o :: (B ++ c :: C)) above marks holder ids list c C next := by
  obtain ⟨openerInl, closerInl, before, l, after, holderNode, openerNode, closerNode, sign, sign',
    rfl, hmark, hmark', hbefore, hafter, hpos, hpair⟩ := h.pair hE.widths ho hc hrule hmin
  have hl : l.length < fuel := by
    simp only [List.length_append, List.length_cons] at hfuel
    omega
  have hstack := (List.nodup_append.mp h.stacked.nodup).1
  have hopenerStack : below ++ ((A ++ o :: (B ++ c :: C)) ++ above) =
      (below ++ A) ++ o :: (B ++ c :: (C ++ above)) := by simp
  have hcloserStack : below ++ ((A ++ o :: (B ++ c :: C)) ++ above) =
      (below ++ (A ++ o :: B)) ++ c :: (C ++ above) := by simp
  have hnext : Links.next (below ++ ((A ++ o :: (B ++ c :: C)) ++ above)) c =
      (C ++ above).head? := by
    rw [hcloserStack] at hstack ⊢
    exact Links.next_split fun hin =>
      (List.nodup_append.mp hstack).2.2 c hin c List.mem_cons_self rfl
  have hkind : ∀ e ∈ [o, c], (s.entries e).kind ≠ .boundary := by
    intro e he hboundary
    have hmarker : (s.entries e).kind = .marker := by
      by_contra hne
      rcases List.mem_cons.mp he with rfl | he
      · exact absurd (h.fit.plain e (by simp) hne).1 (by simp [ho])
      · rw [List.mem_singleton.mp he] at hne
        exact absurd (h.fit.plain c (by simp) hne).2 (by simp [hc])
    rw [hmarker] at hboundary
    cases hboundary
  have hko := hkind o (by simp)
  have hkc := hkind c (by simp)
  cases hcan : E.canContain holderNode kind with
  | false =>
    obtain ⟨s', heq, hnodes, hscaffolds, -, ⟨pool', hstacked⟩, hbare⟩ :=
      hpair.refused hcan (E.granted s)
    refine ⟨s', _, heq, ?_⟩
    have herased : ((below ++ ((A ++ o :: (B ++ c :: C)) ++ above)).erase o).erase c =
        below ++ (((A ++ B) ++ C) ++ above) := by
      rw [hopenerStack] at hstack ⊢
      rw [erase_split hstack]
      have hstack' : ((below ++ (A ++ B)) ++ c :: (C ++ above)).Nodup := by
        refine hstack.sublist ?_
        simp
      have hregroup : below ++ A ++ (B ++ c :: (C ++ above)) =
          (below ++ (A ++ B)) ++ c :: (C ++ above) := by simp
      rw [hregroup, erase_split hstack']
      simp
    rw [herased] at hstacked
    refine h.turn (A ++ B) ⟨hscaffolds, hnodes, hbare⟩ ?_ (kept_of_filter ?_) hstacked hnext
    · rw [List.append_assoc]
      exact (List.Sublist.refl A).append (((List.Sublist.refl B).append
        (List.sublist_cons_self c C)).cons o)
    · simp [hko, hkc]
  | true =>
    cases hgranted : E.granted s with
    | none =>
      refine ⟨_, _, hpair.unallocated hcan, ?_⟩
      have hdone : A ++ o :: (B ++ c :: C) = (A ++ o :: (B ++ [c])) ++ C := by simp
      have hstacked : Stacked { s with error := true }
          (below ++ (((A ++ o :: (B ++ [c])) ++ C) ++ above)) pool := by
        rw [← hdone]
        exact ⟨h.stacked.nodup, h.stacked.previous, h.stacked.next, h.stacked.last,
          h.stacked.pooled, h.stacked.free, h.stacked.openers, h.stacked.closers⟩
      exact h.turn _ ⟨rfl, rfl, fun _ => rfl⟩ (by rw [← hdone]) (by rw [← hdone]) hstacked hnext
    | some inlineNode =>
      obtain ⟨s', next, made, heq, hmade, -, -, -, ⟨pool', hstacked⟩, hbare, hnext'⟩ :
          ∃ s' next made, s.insertDelimitedInline E.canContain E.specOf (some inlineNode) fuel o c
            (s.usedDelims (E.specOf (s.entries c).rule) o c) kind = some (s', next) ∧ _ :=
        hpair.inserted hcan (hE.fresh s _ hgranted) hl
      refine ⟨s', next, heq, ?_⟩
      have hfirst : remaining (below ++ ((A ++ o :: (B ++ c :: C)) ++ above)) o
          (s.width o - s.usedDelims (E.specOf (s.entries c).rule) o c)
          (E.specOf (s.entries c).rule).minimumWidth = (below ++ (A ++ (staying o
            (s.width o - s.usedDelims (E.specOf (s.entries c).rule) o c)
            (E.specOf (s.entries c).rule).minimumWidth ++ B))) ++ c :: (C ++ above) := by
        rw [hopenerStack] at hstack ⊢
        rw [remaining_split hstack]
        simp
      have hstack' : ((below ++ (A ++ (staying o
          (s.width o - s.usedDelims (E.specOf (s.entries c).rule) o c)
          (E.specOf (s.entries c).rule).minimumWidth ++ B))) ++ c :: (C ++ above)).Nodup := by
        rw [hcloserStack] at hstack
        refine hstack.sublist ?_
        refine ((List.Sublist.refl below).append ((List.Sublist.refl A).append ?_)).append
          (List.Sublist.refl _)
        exact (staying_sublist o _ _).append (List.Sublist.refl B)
      rw [hfirst] at hstacked hnext'
      rw [remaining_split hstack'] at hstacked
      have hregroup : ∀ X Y : List ℕ, below ++ (A ++ (X ++ B)) ++ (Y ++ (C ++ above)) =
          below ++ ((A ++ (X ++ (B ++ (Y ++ C)))) ++ above) := by simp
      rw [hregroup] at hstacked
      obtain ⟨ids', hready, hshort⟩ := h.paired hB hrule hmark hmark' hbefore hafter hpair hmade
        hbare hstacked
      have hin : openerInl ∈ marks ∧ closerInl ∈ marks :=
        ⟨hmarks o (by simp) _ hmark, hmarks c (by simp) _ hmark'⟩
      have hassoc : ∀ X Y : List ℕ, (A ++ (X ++ B)) ++ (Y ++ C) = A ++ (X ++ (B ++ (Y ++ C))) := by
        simp
      refine ⟨_, _, pool', ids', _, by rw [hassoc]; exact hready,
        ⟨hbare, ?_, kept_of_filter ?_, hshort.mono ?_, fun p hp hused => ?_⟩, ?_, ?_, ?_, ?_⟩
      · rw [hassoc]
        exact (List.Sublist.refl A).append ((staying_sublist _ _ _).append
          ((List.Sublist.refl B).append ((staying_sublist _ _ _).append (List.Sublist.refl C))))
      · have hstaying : ∀ e num minimumWidth, (s.entries e).kind ≠ .boundary →
            (staying e num minimumWidth).filter (fun e => (s.entries e).kind = .boundary) = [] := by
          intro e num minimumWidth he
          rw [staying]
          split <;> simp [he]
        rw [hassoc]
        simp [hstaying, hko, hkc]
      · intro p hp
        rcases List.mem_cons.mp hp with rfl | hp
        · exact hin.1
        · rw [List.mem_singleton.mp hp]
          exact hin.2
      · refine hmade.rest p ?_ (fun heq => hp (heq ▸ hin.1)) fun heq => hp (heq ▸ hin.2)
        rintro rfl
        exact hused (hE.fresh s _ hgranted)
      · have hstay : ∀ num minimumWidth, staying c num minimumWidth =
            if Leaves num minimumWidth then [] else [c] := fun _ _ => rfl
        have hc' : c ∉ below ++ (A ++ (staying o
            (s.width o - s.usedDelims (E.specOf (s.entries c).rule) o c)
            (E.specOf (s.entries c).rule).minimumWidth ++ B)) := fun hin =>
          (List.nodup_append.mp hstack').2.2 c hin c List.mem_cons_self rfl
        rw [hnext', hstay]
        split
        next => exact Links.next_split hc'
        next => rfl
      · rw [staying]
        split
        next => exact Or.inl rfl
        next => exact Or.inr rfl
      · have hC : weight s' C = weight s C := by
          refine weight_congr fun e he => ?_
          rw [marked, marked, markOf_congr hbare]
          cases hm : markOf s.entries e with
          | none => rfl
          | some p =>
            have hp := hafter.mem (List.mem_filterMap.mpr ⟨e, he, hm⟩)
            have hnodup := hpair.list.nodup
            simp only [List.nodup_append, List.nodup_cons, List.mem_append, List.mem_cons] at hnodup
            have hinline : p ≠ inlineNode := by
              rintro rfl
              have hnew := hmade.outer.nodup
              simp only [List.nodup_append, List.nodup_cons, List.mem_append, List.mem_cons] at hnew
              grind
            rw [Option.bind_some, Option.bind_some, hmade.rest p hinline (by grind) (by grind)]
        have hwidth : marked s c = s.width c := by
          simp [marked, hmark', hpair.closerRun.stored, hpair.closerRun.literal]
        have hused := hpair.enough.2
        rw [weight, hwidth, staying]
        split
        next =>
          rw [List.nil_append, hC]
          omega
        next hstays =>
          rw [Leaves, not_or] at hstays
          have hstored := hmade.closer
          rw [if_neg hstays.1] at hstored
          have hleft : marked s' c =
              s.width c - s.usedDelims (E.specOf (s.entries c).rule) o c := by
            simp [marked, markOf_congr hbare, hmark', hstored, hpair.closerRun.literal]
          rw [List.singleton_append, weight, hC, hleft]
          omega
      · have hleftover : ∀ num p : ℕ, (leftover num p).length ≤ 1 := by
          intro num p
          rw [leftover]
          split <;> simp
        have hone :=
          hleftover (s.width o - s.usedDelims (E.specOf (s.entries c).rule) o c) openerInl
        have hone' :=
          hleftover (s.width c - s.usedDelims (E.specOf (s.entries c).rule) o c) closerInl
        simp only [List.length_append, List.length_cons]
        omega

/-- A pair found is made once what stands between its two entries is reduced. -/
lemma Ready.pairFound
    (h : Ready s E bottom below (A ++ o :: (B ++ c :: C)) above pool holder ids list) (hE : Sound E)
    (hmarks : ∀ e ∈ A ++ o :: (B ++ c :: C), ∀ p ∈ markOf s.entries e, p ∈ marks)
    (hadmits : admits (E.specOf (s.entries c).rule) (s.entries o) (s.entries c) = true)
    (hc : (s.entries c).canClose = true) {fuel : ℕ} (hfuel : B.length + list.length < fuel) :
    ∃ s' next, s.pairFound E fuel o c = some (s', next) ∧
      Turn s s' E bottom below (A ++ o :: (B ++ c :: C)) above marks holder ids list c C next := by
  rw [admits, Bool.and_eq_true, Bool.and_eq_true, decide_eq_true_iff] at hadmits
  obtain ⟨⟨ho, hrule⟩, -⟩ := hadmits
  have hstacked : Stacked s ((below ++ (A ++ [o])) ++ (B ++ (c :: (C ++ above)))) pool := by
    have hstacked := h.stacked
    simpa using hstacked
  obtain ⟨t, pool', hreduced, hstacked', hunmoved⟩ := hstacked.reduceDelimiterRange
    (Nat.lt_of_le_of_lt (Nat.le_add_right _ _) hfuel)
  have hlast : (below ++ (A ++ [o])).getLast? = some o := by
    rw [← List.append_assoc, List.getLast?_concat]
  rw [hlast, List.head?_cons] at hreduced
  have hbare := hunmoved.bare
  have hsub : (A ++ o :: (kept s.entries false B ++ c :: C)).Sublist (A ++ o :: (B ++ c :: C)) :=
    (List.Sublist.refl A).append (((kept_sublist _ _ B).append (List.Sublist.refl _)).cons_cons o)
  have hkept : kept s.entries false (A ++ o :: (kept s.entries false B ++ c :: C)) =
      kept s.entries false (A ++ o :: (B ++ c :: C)) := by
    have hmiddle := kept_middle s.entries (A ++ [o]) B (c :: C)
    simpa using hmiddle
  have hstacked'' : Stacked t (below ++ ((A ++ o :: (kept s.entries false B ++ c :: C)) ++ above))
      pool' := by simpa using hstacked'
  have hready := h.sublist hunmoved hsub hstacked''
  have hB : ∀ e ∈ kept s.entries false B, (t.entries e).kind = .boundary := by
    intro e he
    rw [bare_kind (hbare e)]
    rw [kept, if_neg Bool.false_ne_true, Option.mem_toList] at he
    exact of_decide_eq_true (List.mem_filter.mp (List.mem_of_getLast? he)).2
  rw [State.pairFound, hreduced, Option.bind_some]
  dsimp only
  by_cases hmin : (E.specOf (t.entries c).rule).minimumWidth ≠ 0
  · rw [if_pos hmin]
    have hmarks' : ∀ e ∈ A ++ o :: (kept s.entries false B ++ c :: C),
        ∀ p ∈ markOf t.entries e, p ∈ marks := by
      rw [markOf_congr hbare]
      exact fun e he => hmarks e (hsub.mem he)
    obtain ⟨s', next, heq, hturn⟩ := hready.insert hE hB hmarks'
      (by rw [bare_canOpen (hbare o)]; exact ho) (by rw [bare_canClose (hbare c)]; exact hc)
      (by rw [bare_rule (hbare o), bare_rule (hbare c)]; exact hrule) hmin
      (Nat.lt_of_le_of_lt (Nat.le_add_left _ _) hfuel) _
    exact ⟨s', next, heq, hturn.after hunmoved hsub hkept⟩
  · rw [if_neg hmin]
    have hbuilt := (hready.fit.built c (by simp)).resolve_left hmin
    rw [hbuilt]
    have hdone : A ++ o :: (kept s.entries false B ++ c :: C) =
        (A ++ o :: (kept s.entries false B ++ [c])) ++ C := by simp
    have hnext : (t.entries c).next = (C ++ above).head? := by
      have hsplit : below ++ ((A ++ o :: (kept s.entries false B ++ c :: C)) ++ above) =
          (below ++ (A ++ o :: kept s.entries false B)) ++ c :: (C ++ above) := by simp
      rw [hsplit] at hstacked''
      exact hstacked''.next_split
    rw [hdone] at hsub hkept hstacked''
    exact ⟨t, _, rfl, h.turn _ hunmoved hsub hkept hstacked'' hnext⟩

/-- A search ends before what the range does not hold. -/
lemma openerOf_range {entries : ℕ → Entry} {spec : RuleSpec K} {closer : Entry} {floor : ℕ}
    {done : List ℕ} (hbelow : ∀ e ∈ below.getLast?, (entries e).position < floor) :
    openerOf entries spec closer floor (below ++ done) =
      openerOf entries spec closer floor done := by
  have hnone : below.reverse.takeWhile (fun e => decide (floor ≤ (entries e).position)) = [] := by
    rcases below.eq_nil_or_concat with rfl | ⟨below, e, rfl⟩
    · rfl
    · rw [List.concat_eq_append] at hbelow ⊢
      have hlt := hbelow e (by simp)
      rw [List.reverse_append, List.reverse_singleton, List.singleton_append, List.takeWhile_cons,
        if_neg fun hle => not_lt.mpr (of_decide_eq_true hle) hlt]
  rw [openerOf, openerOf, List.reverse_append, List.takeWhile_append, hnone, List.append_nil]
  split
  next hall => rw [(List.takeWhile_prefix _).eq_of_length hall]
  next => rfl

lemma pass_affixBottom {floors : Floors} {entry : Entry} (h : bottom ≤ floors.affixBottom)
    (hentry : bottom ≤ entry.position) : bottom ≤ (floors.pass entry).affixBottom := by
  rw [Floors.pass]
  split
  next => exact h
  next =>
    split
    next => exact hentry
    next => exact h

lemma le_boundary (spec : RuleSpec K) {floors : Floors} (h : bottom ≤ floors.affixBottom) :
    bottom ≤ floors.boundary spec := by
  rw [Floors.boundary]
  split
  next => exact h.trans (le_max_left _ _)
  next => exact h

/-- One turn of the pairing keeps the range ready and leaves less of it to do. -/
lemma Ready.pairStep {done rest : List ℕ}
    (h : Ready s E bottom below (done ++ c :: rest) above pool holder ids list) (hE : Sound E)
    (hmarks : ∀ e ∈ done ++ c :: rest, ∀ p ∈ markOf s.entries e, p ∈ marks) {floors : Floors}
    (hfloors : bottom ≤ floors.affixBottom) {fuel : ℕ}
    (hfuel : below.length + (done ++ c :: rest).length + list.length < fuel) :
    ∃ s' floors' next, s.pairStep E fuel floors c = some (s', floors', next) ∧
      bottom ≤ floors'.affixBottom ∧
      Turn s s' E bottom below (done ++ c :: rest) above marks holder ids list c rest next := by
  have hsplit : below ++ ((done ++ c :: rest) ++ above) =
      (below ++ done) ++ c :: (rest ++ above) := by simp
  have hstacked := h.stacked
  rw [hsplit] at hstacked
  have hnext := hstacked.next_split
  have hprevious := hstacked.previous_split
  have hfloors' := pass_affixBottom hfloors (h.fit.above_bottom c (by simp))
  have hdone : done ++ c :: rest = (done ++ [c]) ++ rest := by simp
  have hpassed : Turn s s E bottom below (done ++ c :: rest) above marks holder ids list c rest
      (s.entries c).next := by
    have hstacked' := h.stacked
    rw [hdone] at hstacked'
    exact h.turn (done ++ [c]) (.refl s) (by rw [← hdone]) (by rw [← hdone]) hstacked' hnext
  rw [List.length_append, List.length_cons] at hfuel
  rw [State.pairStep]
  dsimp only
  by_cases hclose : (s.entries c).canClose = false
  · rw [if_pos hclose]
    exact ⟨s, _, _, rfl, hfloors', hpassed⟩
  · rw [if_neg hclose]
    rw [Bool.not_eq_false] at hclose
    have hbottom : bottom ≤ (floors.pass (s.entries c)).bottom (E.specOf (s.entries c).rule)
        (s.entries c) := (le_boundary _ hfloors').trans (le_max_right _ _)
    have hlength : (below ++ done).length < fuel := by
      rw [List.length_append]
      omega
    have hfound := hstacked.findOpener (E.specOf (s.entries c).rule) (s.entries c)
      ((floors.pass (s.entries c)).bottom (E.specOf (s.entries c).rule) (s.entries c))
      hlength
    rw [openerOf_range fun e he => (h.fit.below_bottom e he).trans_le hbottom,
      ← hprevious] at hfound
    rw [hfound]
    cases hopener : openerOf s.entries (E.specOf (s.entries c).rule) (s.entries c)
        ((floors.pass (s.entries c)).bottom (E.specOf (s.entries c).rule) (s.entries c)) done with
    | some o =>
      obtain ⟨hadmits, -, A, B, rfl⟩ := openerOf_eq_some hopener
      have hrange : (A ++ o :: B) ++ c :: rest = A ++ o :: (B ++ c :: rest) := by simp
      rw [hrange] at h hmarks ⊢
      rw [List.length_append, List.length_cons] at hfuel
      have hfuel' : B.length + list.length < fuel := by omega
      obtain ⟨s', next, heq, hturn⟩ := h.pairFound hE hmarks hadmits hclose hfuel'
      refine ⟨s', _, next, ?_, hfloors', hturn⟩
      dsimp only
      rw [heq]
      rfl
    | none =>
      refine ⟨_, _, _, rfl, hfloors', ?_⟩
      split
      next => exact hpassed
      next hopen =>
        have hremoved := hstacked.remove
        have hregroup : (below ++ done) ++ (rest ++ above) =
            below ++ ((done ++ rest) ++ above) := by simp
        rw [hregroup] at hremoved
        refine h.turn done (h.stacked.unmoved (by simp))
          ((List.Sublist.refl done).append (List.sublist_cons_self c rest)) (kept_of_filter ?_)
          hremoved hnext
        · have hkind : (s.entries c).kind ≠ .boundary := by
            intro hboundary
            have hplain := h.fit.plain c (by simp) (by rw [hboundary]; exact nofun)
            rw [hplain.2] at hclose
            cases hclose
          simp [hkind]

/-! ### The whole range -/

/-- The range is paired to its end. -/
lemma Ready.pairRange {done rest : List ℕ} {turns : ℕ}
    (h : Ready s E bottom below (done ++ rest) above pool holder ids list) (hE : Sound E)
    (hmarks : ∀ e ∈ done ++ rest, ∀ p ∈ markOf s.entries e, p ∈ marks) {floors : Floors}
    (hfloors : bottom ≤ floors.affixBottom) {fuel : ℕ}
    (hfuel : below.length + (done ++ rest).length + list.length + weight s rest < fuel)
    (hturns : weight s rest < turns) :
    ∃ s' range' pool' ids' list',
      State.pairRange E fuel above.head? turns s floors (rest ++ above).head? = some s' ∧
      Ready s' E bottom below range' above pool' holder ids' list' ∧
      Turned s s' marks (done ++ rest) range' ids ids' := by
  induction turns generalizing s done rest pool ids list floors with
  | zero => cases hturns
  | succ turns ih =>
    rw [State.pairRange]
    cases rest with
    | nil =>
      rw [List.nil_append, if_pos rfl]
      exact ⟨s, _, pool, ids, list, rfl, h, Unmoved.turned (.refl s) (List.Sublist.refl _) rfl⟩
    | cons c rest =>
      have hne : some c ≠ above.head? := by
        have hnodup := (List.nodup_append.mp h.stacked.nodup).1
        simp only [List.nodup_append, List.nodup_cons, List.mem_append, List.mem_cons] at hnodup
        intro heq
        have hin := List.mem_of_mem_head? heq.symm
        grind
      have hfuel' : below.length + (done ++ c :: rest).length + list.length < fuel := by omega
      obtain ⟨s', floors', next, heq, hfloors', hturn⟩ := h.pairStep hE hmarks hfloors hfuel'
      obtain ⟨done', rest', pool', ids', list', hready, hturned, rfl, -, hweight, hlength⟩ := hturn
      rw [List.cons_append, List.head?_cons, if_neg hne, Option.bind_some, heq, Option.bind_some]
      have hshorter := hturned.sub.length_le
      have hmarks' : ∀ e ∈ done' ++ rest', ∀ p ∈ markOf s'.entries e, p ∈ marks := by
        rw [markOf_congr hturned.bare]
        exact fun e he => hmarks e (hturned.sub.mem he)
      have hfuel'' : below.length + (done' ++ rest').length + list'.length + weight s' rest' <
        fuel := by omega
      obtain ⟨t, range', pool'', ids'', list'', hrun, hready', hturned'⟩ :=
        ih hready hmarks' hfloors' hfuel'' (by omega)
      exact ⟨t, range', pool'', ids'', list'', hrun, hready', hturned.trans hturned'⟩

end MarkdownCore.Delimiter
