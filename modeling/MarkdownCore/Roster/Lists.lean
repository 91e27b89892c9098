import Mathlib.Data.List.Perm.Subperm
import MarkdownCore.Roster.Roster

/-!
# The keys' lists

The index holds, for each key, the first and the number of a list that the records link in the
order of where they start. A declaration joins its key's list after every other that does not start
past it, wherever the search begins, and leaves it wherever it stands.
-/

namespace MarkdownCore.Declarations

open Links

/-- The records link a list. -/
structure Linked (m : ℕ → Record) (l : List ℕ) : Prop where
  nodup : l.Nodup
  after : ∀ y ∈ l, (m y).after = next l y
  before : ∀ y ∈ l, (m y).before = (prior l y).or l.getLast?
  hint : ∀ f ∈ l.head?, ∀ h ∈ (m f).hint, h ∈ l
  linked : ∀ y ∈ l, (m y).linked = true

/-- A record without its links. -/
def Record.bare (record : Record) : Record :=
  { record with before := none, after := none, hint := none, linked := false }

/-- The lists of a roster's index, each of its key's declarations, in order of where they start. -/
structure Lists (r : Roster) (lists : Key → List ℕ) : Prop where
  index : ∀ key, r.index key = (lists key).head?.map fun f => (f, (lists key).length)
  linked : ∀ key, Linked r.records (lists key)
  key : ∀ key, ∀ y ∈ lists key, (r.records y).key = key
  lt : ∀ key, ∀ y ∈ lists key, y < r.count
  ordered : ∀ key, (lists key).Pairwise fun a b => precedes (r.records b) (r.records a) = false

/-! ### The order of a list -/

lemma precedes_of_not {a b c : Record} (h : precedes a b = true) (h' : precedes c b = false) :
    precedes a c = true := by
  cases ha : a.back <;> cases hb : b.back <;> cases hc : c.back <;>
    simp_all [precedes] <;> omega

lemma precedes_asymm {a b : Record} (h : precedes a b = true) : precedes b a = false := by
  cases ha : a.back <;> cases hb : b.back <;> simp_all [precedes] <;> omega

lemma bare_key {a b : Record} (h : a.bare = b.bare) : a.key = b.key := by
  have hkey : a.bare.key = b.bare.key := congrArg Record.key h
  exact hkey

lemma bare_precedes {a b a' b' : Record} (ha : a.bare = a'.bare) (hb : b.bare = b'.bare) :
    precedes a b = precedes a' b' := by
  have hback : a.bare.back = a'.bare.back := congrArg Record.back ha
  have hstart : a.bare.start = a'.bare.start := congrArg Record.start ha
  have hback' : b.bare.back = b'.bare.back := congrArg Record.back hb
  have hstart' : b.bare.start = b'.bare.start := congrArg Record.start hb
  dsimp only [Record.bare] at hback hstart hback' hstart'
  rw [precedes, precedes, hback, hstart, hback', hstart']

/-- Where a list divides by a test that what starts past a record fails too. -/
lemma dropWhile_not {m : ℕ → Record} {l : List ℕ} {p : ℕ → Bool}
    (hordered : l.Pairwise fun a b => precedes (m b) (m a) = false)
    (hp : ∀ a b, p a = false → precedes (m b) (m a) = false → p b = false) :
    ∀ b ∈ l.dropWhile p, p b = false := by
  induction l with
  | nil =>
    intro b hb
    cases hb
  | cons a l ih =>
    obtain ⟨ha, hl⟩ := List.pairwise_cons.mp hordered
    cases hpa : p a with
    | true =>
      rw [List.dropWhile_cons_of_pos hpa]
      exact ih hl
    | false =>
      rw [List.dropWhile_cons_of_neg (by simp [hpa])]
      intro b hb
      rcases List.mem_cons.mp hb with rfl | hb
      · exact hpa
      · exact hp a b hpa (ha b hb)

namespace Roster

variable {r : Roster} {lists : Key → List ℕ}

@[simp] lemma modify_count (id : ℕ) (f : Record → Record) : (r.modify id f).count = r.count := rfl

@[simp] lemma modify_index (id : ℕ) (f : Record → Record) : (r.modify id f).index = r.index := rfl

@[simp] lemma modify_spaces (id : ℕ) (f : Record → Record) : (r.modify id f).spaces = r.spaces := rfl

@[simp] lemma setIndex_records (key : Key) (slot : Option (ℕ × ℕ)) :
    (r.setIndex key slot).records = r.records := rfl

@[simp] lemma setIndex_count (key : Key) (slot : Option (ℕ × ℕ)) :
    (r.setIndex key slot).count = r.count := rfl

lemma modify_records (id y : ℕ) (f : Record → Record) : (r.modify id f).records y =
    if y = id then f (r.records y) else r.records y := by
  rw [modify]
  dsimp only
  rw [Function.update_apply]
  split
  next heq => rw [heq]
  next => rfl

/-- What a write of a record leaves of it. -/
lemma modify_field {α : Type} (g : Record → α) {id : ℕ} {f : Record → Record}
    (hf : ∀ record, g (f record) = g record) (y : ℕ) :
    g ((r.modify id f).records y) = g (r.records y) := by
  rw [modify_records]
  split
  · exact hf _
  · rfl

end Roster

/-- The links of a list's first are to its own. -/
lemma Linked.hint_or_before {m : ℕ → Record} {l : List ℕ} (h : Linked m l) {f : ℕ}
    (hf : l.head? = some f) : ∃ at_ ∈ l, (m f).hint.or (m f).before = some at_ := by
  have hmem : f ∈ l := List.mem_of_mem_head? hf
  cases hhint : (m f).hint with
  | some at_ => exact ⟨at_, h.hint f hf at_ hhint, rfl⟩
  | none =>
    have hlast : l.getLast? ≠ none := by
      intro hnone
      rw [List.getLast?_eq_none_iff.mp hnone] at hmem
      cases hmem
    obtain ⟨last, hlast⟩ := Option.ne_none_iff_exists'.mp hlast
    refine ⟨last, List.mem_of_getLast? hlast, ?_⟩
    rw [Option.none_or, h.before f hmem, (prior_eq_none_iff h.nodup hmem).mpr hf, Option.none_or,
      hlast]

/-- A search of a list that a test divides ends at the last that passes. -/
lemma Linked.search {r : Roster} {l : List ℕ} (h : Linked r.records l) {f : ℕ}
    (hf : l.head? = some f) (hlt : ∀ y ∈ l, y < r.count) {p : ℕ → Bool}
    (hp : ∀ b ∈ l.dropWhile p, p b = false) : r.search f p = (l.takeWhile p).getLast? := by
  obtain ⟨at_, hat, hstart⟩ := h.hint_or_before hf
  have hfuel : l.length < r.count + 1 := by
    have hsub : l ⊆ List.range r.count := fun y hy => List.mem_range.mpr (hlt y hy)
    have hle := (List.subperm_of_subset h.nodup hsub).length_le
    rw [List.length_range] at hle
    exact Nat.lt_succ_of_le hle
  have hprior : ∀ b ∈ l, r.prior f b = Links.prior l b := by
    intro b hb
    rw [Roster.prior]
    split
    next heq =>
      rw [heq] at hb ⊢
      exact ((prior_eq_none_iff h.nodup hb).mpr hf).symm
    next hne =>
      rw [h.before b hb]
      cases hpb : Links.prior l b with
      | some c => rfl
      | none =>
        rw [(prior_eq_none_iff h.nodup hb).mp hpb] at hf
        exact absurd (Option.some.inj hf) hne
  have hl : l.takeWhile p ++ l.dropWhile p = l := List.takeWhile_append_dropWhile
  rw [Roster.search, hstart, Option.bind_some]
  refine search_eq (l.takeWhile p) (l.dropWhile p) ?_ ?_ ?_ ?_ hp ?_ ?_
  · rw [hl]
    exact h.nodup
  · rw [hl]
    exact h.after
  · rw [hl]
    exact hprior
  · exact fun b hb => List.all_eq_true.mp List.all_takeWhile b hb
  · rw [hl]
    exact hat
  · rw [hl]
    exact hfuel

lemma Linked.congr {m m' : ℕ → Record} {l : List ℕ} (h : Linked m l) (hm : ∀ y ∈ l, m' y = m y) :
    Linked m' l := by
  constructor
  · exact h.nodup
  · intro y hy
    rw [hm y hy, h.after y hy]
  · intro y hy
    rw [hm y hy, h.before y hy]
  · intro f hf
    rw [hm f (List.mem_of_mem_head? hf)]
    exact h.hint f hf
  · intro y hy
    rw [hm y hy, h.linked y hy]

/-! ### A declaration joins a list -/

lemma linked_singleton {m : ℕ → Record} {id : ℕ} (hafter : (m id).after = none)
    (hbefore : (m id).before = some id) (hhint : ∀ h ∈ (m id).hint, h = id)
    (hlinked : (m id).linked = true) : Linked m [id] := by
  constructor
  · exact List.nodup_singleton id
  · intro y hy
    rw [List.mem_singleton.mp hy, hafter, next, if_pos rfl]
    rfl
  · intro y hy
    rw [List.mem_singleton.mp hy, hbefore]
    simp [Links.prior, next]
  · intro f hf h hh
    cases hf
    exact List.mem_singleton.mpr (hhint h hh)
  · intro y hy
    rw [List.mem_singleton.mp hy, hlinked]

/-- A declaration put at a list's front. -/
lemma Linked.cons {m m' : ℕ → Record} {l : List ℕ} (h : Linked m l) {id first : ℕ}
    (hf : l.head? = some first) (hid : id ∉ l)
    (hafter : ∀ y, (m' y).after = if y = id then some first else (m y).after)
    (hbefore : ∀ y, (m' y).before =
      if y = first then some id else if y = id then (m first).before else (m y).before)
    (hhint : ∀ k ∈ (m' id).hint, k = id) (hlinked : ∀ y ∈ id :: l, (m' y).linked = true) :
    Linked m' (id :: l) := by
  have hnodup : (id :: l).Nodup := List.nodup_cons.mpr ⟨hid, h.nodup⟩
  have hfirst : first ∈ l := List.mem_of_mem_head? hf
  have hne : id ≠ first := fun heq => hid (heq ▸ hfirst)
  have hlast : (id :: l).getLast? = l.getLast? := by
    cases l with
    | nil => cases hfirst
    | cons a l => rw [List.getLast?_cons_cons]
  constructor
  · exact hnodup
  · intro y hy
    rw [hafter, next]
    by_cases hyid : y = id
    · rw [if_pos hyid, if_pos hyid.symm, hf]
    · rw [if_neg hyid, if_neg (Ne.symm hyid)]
      exact h.after y ((List.mem_cons.mp hy).resolve_left hyid)
  · intro y hy
    rw [hbefore, hlast]
    by_cases hyid : y = id
    · have hprior : Links.prior (id :: l) id = none :=
        (prior_eq_none_iff hnodup List.mem_cons_self).mpr rfl
      rw [hyid, if_neg hne, if_pos rfl, hprior, h.before first hfirst,
        (prior_eq_none_iff h.nodup hfirst).mpr hf]
    · have hmem : y ∈ l := (List.mem_cons.mp hy).resolve_left hyid
      have hprior : Links.prior (id :: l) y =
          if l.head? = some y then some id else Links.prior l y :=
        prior_insert (l := []) hnodup hmem
      rw [hprior, if_neg hyid, hf]
      by_cases hyf : y = first
      · rw [if_pos hyf, if_pos (congrArg some hyf.symm), Option.some_or]
      · rw [if_neg hyf, if_neg fun heq => hyf (Option.some.inj heq).symm, h.before y hmem]
  · intro f hf' k hk
    cases hf'
    rw [hhint k hk]
    exact List.mem_cons_self
  · exact hlinked

/-- A declaration put after another. -/
lemma Linked.insert {m m' : ℕ → Record} {l l' : List ℕ} (h : Linked m (l ++ l')) {id first at_ : ℕ}
    (hf : (l ++ l').head? = some first) (hat : l.getLast? = some at_) (hid : id ∉ l ++ l')
    (hafter : ∀ y, (m' y).after =
      if y = at_ then some id else if y = id then (m at_).after else (m y).after)
    (hbefore : ∀ y, (m' y).before = if y = (m at_).after.getD first then some id
      else if y = id then some at_ else (m y).before)
    (hhint : ∀ k ∈ (m' first).hint, k = id) (hlinked : ∀ y ∈ l ++ id :: l', (m' y).linked = true) :
    Linked m' (l ++ id :: l') := by
  have hnodup : (l ++ id :: l').Nodup := by
    rw [List.nodup_middle]
    exact List.nodup_cons.mpr ⟨hid, h.nodup⟩
  have hl : at_ ∈ l := List.mem_of_getLast? hat
  have hmem : at_ ∈ l ++ l' := List.mem_append_left _ hl
  have hfirst : first ∈ l ++ l' := List.mem_of_mem_head? hf
  have hidl : id ∉ l := fun hin => hid (List.mem_append_left _ hin)
  have hidl' : id ∉ l' := fun hin => hid (List.mem_append_right _ hin)
  -- What stands after the other.
  have hnext : (m at_).after = l'.head? := by
    rw [h.after at_ hmem]
    obtain ⟨before, rfl⟩ := List.getLast?_eq_some_iff.mp hat
    have heq : before ++ [at_] ++ l' = before ++ at_ :: l' := by
      rw [List.append_assoc, List.singleton_append]
    have hnodup := h.nodup
    rw [heq] at hnodup ⊢
    exact next_split fun hin =>
      (List.nodup_append.mp hnodup).2.2 at_ hin at_ List.mem_cons_self rfl
  have hhead : (l ++ id :: l').head? = some first := by
    cases l with
    | nil => cases hl
    | cons a l => exact hf
  have hcases : ∀ {y}, y ∈ l ++ id :: l' → y ≠ id → y ∈ l ++ l' := by
    intro y hy hne
    rcases List.mem_append.mp hy with hy | hy
    · exact List.mem_append_left _ hy
    · exact List.mem_append_right _ ((List.mem_cons.mp hy).resolve_left hne)
  constructor
  · exact hnodup
  · intro y hy
    rw [hafter]
    by_cases hyid : y = id
    · have hne : y ≠ at_ := fun heq => hid (hyid ▸ heq ▸ hmem)
      rw [if_neg hne, if_pos hyid, hyid, next_split hidl, hnext]
    · rw [next_insert hnodup (hcases hy hyid), hat]
      by_cases hyat : y = at_
      · rw [if_pos hyat, if_pos (congrArg some hyat.symm)]
      · rw [if_neg hyat, if_neg hyid, if_neg fun heq => hyat (Option.some.inj heq).symm,
          h.after y (hcases hy hyid)]
  · intro y hy
    rw [hbefore, hnext]
    by_cases hyid : y = id
    · have hne : y ≠ l'.head?.getD first := by
        intro heq
        refine hid ?_
        rw [← hyid, heq]
        cases hl' : l'.head? with
        | none => exact hfirst
        | some b => exact List.mem_append_right _ (List.mem_of_mem_head? hl')
      rw [if_neg hne, if_pos hyid, hyid, prior_split hidl', hat, Option.some_or]
    · have hy' := hcases hy hyid
      rw [prior_insert hnodup hy', if_neg hyid, h.before y hy']
      cases hl' : l' with
      | nil =>
        -- The one that joins is the last, which the first holds.
        rw [hl', List.append_nil] at hf
        rw [List.append_nil, List.getLast?_concat]
        have hiff : Links.prior l y = none ↔ l.head? = some y := by
          rw [hl', List.append_nil] at h hy'
          exact prior_eq_none_iff h.nodup hy'
        rw [List.head?_nil, Option.getD_none, if_neg (show ¬ none = some y from nofun)]
        by_cases hyf : y = first
        · rw [if_pos hyf, hiff.mpr (hyf ▸ hf), Option.none_or]
        · rw [if_neg hyf]
          cases hprior : Links.prior l y with
          | some c => rfl
          | none =>
            rw [hiff.mp hprior] at hf
            exact absurd (Option.some.inj hf) hyf
      | cons b rest =>
        have hlast : (l ++ id :: b :: rest).getLast? = (l ++ b :: rest).getLast? := by
          rw [List.getLast?_append_of_ne_nil _ (List.cons_ne_nil _ _), List.getLast?_cons_cons,
            List.getLast?_append_of_ne_nil _ (List.cons_ne_nil _ _)]
        rw [hlast, List.head?_cons, Option.getD_some]
        by_cases hyb : y = b
        · rw [if_pos hyb, if_pos (congrArg some hyb.symm), Option.some_or]
        · rw [if_neg hyb, if_neg fun heq => hyb (Option.some.inj heq).symm]
  · intro f hf' k hk
    rw [hhead] at hf'
    cases hf'
    rw [hhint k hk]
    exact List.mem_append_right _ List.mem_cons_self
  · exact hlinked

/-- A roster but for the links of some records, and the index. -/
structure Relinked (r r' : Roster) (l : List ℕ) : Prop where
  count : r'.count = r.count
  spaces : r'.spaces = r.spaces
  placed : r'.placed = r.placed
  hidden : r'.hidden = r.hidden
  bytes : r'.bytes = r.bytes
  dead : r'.dead = r.dead
  lost : r'.lost = r.lost
  bare : ∀ y, (r'.records y).bare = (r.records y).bare
  other : ∀ y ∉ l, r'.records y = r.records y

lemma mem_of_next {l : List ℕ} {a b : ℕ} (h : next l a = some b) : b ∈ l := by
  induction l with
  | nil => cases h
  | cons c l ih =>
    rw [next] at h
    split at h
    · exact List.mem_cons_of_mem _ (List.mem_of_mem_head? h)
    · exact List.mem_cons_of_mem _ (ih h)

namespace Relinked

variable {r r' : Roster} {l : List ℕ}

lemma refl (r : Roster) (l : List ℕ) : Relinked r r l :=
  ⟨rfl, rfl, rfl, rfl, rfl, rfl, rfl, fun _ => rfl, fun _ _ => rfl⟩

lemma modify (h : Relinked r r' l) {id : ℕ} (hid : id ∈ l) {f : Record → Record}
    (hf : ∀ record, (f record).bare = record.bare) : Relinked r (r'.modify id f) l := by
  refine ⟨h.count, h.spaces, h.placed, h.hidden, h.bytes, h.dead, h.lost, ?_, ?_⟩
  · intro y
    rw [Roster.modify_records]
    split
    · rw [hf, h.bare]
    · exact h.bare y
  · intro y hy
    rw [Roster.modify_records, if_neg fun heq => hy (by rw [heq]; exact hid)]
    exact h.other y hy

lemma setIndex (h : Relinked r r' l) (key : Key) (slot : Option (ℕ × ℕ)) :
    Relinked r (r'.setIndex key slot) l :=
  ⟨h.count, h.spaces, h.placed, h.hidden, h.bytes, h.dead, h.lost, h.bare, h.other⟩

end Relinked

/-- One key's list, changed. -/
lemma Lists.replace {r r' : Roster} {lists : Key → List ℕ} (h : Lists r lists) {key : Key}
    {l l' : List ℕ} (hr : Relinked r r' l) (hl : ∀ y ∈ l, (r.records y).key = key)
    (hindex : r'.index = Function.update r.index key (l'.head?.map fun f => (f, l'.length)))
    (hlinked : Linked r'.records l') (hsub : ∀ y ∈ l', y ∈ l) (hlt : ∀ y ∈ l', y < r.count)
    (hordered : l'.Pairwise fun a b => precedes (r.records b) (r.records a) = false) :
    Lists r' (Function.update lists key l') := by
  have hkey : ∀ y, (r'.records y).key = (r.records y).key := fun y =>
    bare_key (hr.bare y)
  constructor
  · intro other
    rw [hindex, Function.update_apply, Function.update_apply]
    split
    · rfl
    · exact h.index other
  · intro other
    rw [Function.update_apply]
    split
    · exact hlinked
    next hne =>
      refine (h.linked other).congr fun y hy => hr.other y fun hin => hne ?_
      rw [← h.key other y hy, hl y hin]
  · intro other y hy
    rw [hkey]
    rw [Function.update_apply] at hy
    split at hy
    next heq => rw [hl y (hsub y hy), heq]
    next => exact h.key other y hy
  · intro other y hy
    rw [hr.count]
    rw [Function.update_apply] at hy
    split at hy
    · exact hlt y hy
    · exact h.lt other y hy
  · intro other
    have hbare : ∀ a b, precedes (r'.records b) (r'.records a) =
        precedes (r.records b) (r.records a) := fun a b => bare_precedes (hr.bare b) (hr.bare a)
    simp only [hbare]
    rw [Function.update_apply]
    split
    · exact hordered
    · exact h.ordered other

lemma pairwise_insert {m : ℕ → Record} {l l' : List ℕ} (id : ℕ)
    (h : (l ++ l').Pairwise fun a b => precedes (m b) (m a) = false)
    (hl : ∀ a ∈ l, precedes (m id) (m a) = false) (hl' : ∀ b ∈ l', precedes (m id) (m b) = true) :
    (l ++ id :: l').Pairwise fun a b => precedes (m b) (m a) = false := by
  obtain ⟨hpl, hpl', hcross⟩ := List.pairwise_append.mp h
  refine List.pairwise_append.mpr ⟨hpl, List.pairwise_cons.mpr ⟨?_, hpl'⟩, ?_⟩
  · intro b hb
    exact precedes_asymm (hl' b hb)
  · intro a ha b hb
    rcases List.mem_cons.mp hb with rfl | hb
    · exact hl a ha
    · exact hcross a ha b hb

namespace Roster

section

variable {r : Roster} {l : List ℕ} {id : ℕ}

lemma linkAlone_linked (r : Roster) (id : ℕ) (key : Key) :
    Linked ((r.hold id).linkAlone id key).records [id] ∧
      Relinked r ((r.hold id).linkAlone id key) [id] := by
  have hid : id ∈ [id] := List.mem_singleton_self id
  constructor
  · refine linked_singleton ?_ ?_ ?_ ?_ <;>
      simp [linkAlone, hold, modify_records]
  · refine Relinked.setIndex (Relinked.modify (Relinked.modify (Relinked.refl r _) hid ?_) hid ?_) _ _
    · intro record
      rfl
    · intro record
      rfl

lemma linkFirst_linked (h : Linked r.records l) {first : ℕ} (hf : l.head? = some first)
    (hid : id ∉ l) (count : ℕ) (key : Key) :
    Linked ((r.hold id).linkFirst id first count key).records (id :: l) ∧
      Relinked r ((r.hold id).linkFirst id first count key) (id :: l) := by
  have hfirst : first ∈ l := List.mem_of_mem_head? hf
  have hne : first ≠ id := fun heq => hid (heq ▸ hfirst)
  constructor
  · refine h.cons hf hid ?_ ?_ ?_ ?_
    · intro y
      simp only [linkFirst, hold, setIndex_records, modify_records]
      grind
    · intro y
      simp only [linkFirst, hold, setIndex_records, modify_records]
      grind
    · simp only [linkFirst, hold, setIndex_records, modify_records]
      grind
    · intro y hy
      have hlinked := fun hin => h.linked y hin
      simp only [linkFirst, hold, setIndex_records, modify_records]
      grind
  · have hin : id ∈ id :: l := List.mem_cons_self
    refine Relinked.setIndex (Relinked.modify (Relinked.modify (Relinked.modify (Relinked.refl r _)
      hin ?_) hin ?_) (List.mem_cons_of_mem _ hfirst) ?_) _ _
    · intro record
      rfl
    · intro record
      rfl
    · intro record
      rfl

lemma linkAfter_linked {l' : List ℕ} (h : Linked r.records (l ++ l')) {first at_ : ℕ}
    (hf : (l ++ l').head? = some first) (hat : l.getLast? = some at_) (hid : id ∉ l ++ l')
    (count : ℕ) (key : Key) :
    Linked ((r.hold id).linkAfter id first count key at_).records (l ++ id :: l') ∧
      Relinked r ((r.hold id).linkAfter id first count key at_) (id :: (l ++ l')) := by
  have hfirst : first ∈ l ++ l' := List.mem_of_mem_head? hf
  have hmem : at_ ∈ l ++ l' := List.mem_append_left _ (List.mem_of_getLast? hat)
  have hnext : (r.records at_).after.getD first ∈ l ++ l' := by
    cases hafter : (r.records at_).after with
    | none => exact hfirst
    | some next =>
      rw [h.after at_ hmem] at hafter
      exact mem_of_next hafter
  have hne : first ≠ id := fun heq => hid (heq ▸ hfirst)
  have hne' : at_ ≠ id := fun heq => hid (heq ▸ hmem)
  have hne'' : (r.records at_).after.getD first ≠ id := fun heq => hid (heq ▸ hnext)
  have hheld : ((r.hold id).records at_).after = (r.records at_).after := by
    rw [hold, modify_records, if_neg hne']
  constructor
  · refine h.insert hf hat hid ?_ ?_ ?_ ?_
    · intro y
      simp only [linkAfter, hold, setIndex_records, modify_records]
      grind
    · intro y
      simp only [linkAfter, hold, setIndex_records, modify_records]
      grind
    · simp only [linkAfter, hold, setIndex_records, modify_records]
      grind
    · intro y hy
      have hlinked := fun hin => h.linked y hin
      simp only [linkAfter, hold, setIndex_records, modify_records]
      grind
  · have hin : id ∈ id :: (l ++ l') := List.mem_cons_self
    refine Relinked.setIndex (Relinked.modify (Relinked.modify (Relinked.modify (Relinked.modify
      (Relinked.modify (Relinked.refl r _) hin ?_) hin ?_) ?_ ?_) (List.mem_cons_of_mem _ hmem) ?_)
        (List.mem_cons_of_mem _ hfirst) ?_) _ _
    · intro record
      rfl
    · intro record
      rfl
    · rw [hheld]
      exact List.mem_cons_of_mem _ hnext
    · intro record
      rfl
    · intro record
      rfl
    · intro record
      rfl

end

end Roster

/-- A declaration joins its key's list: after those that it does not precede. -/
theorem Lists.link {r : Roster} {lists : Key → List ℕ} (h : Lists r lists) {id : ℕ} {key : Key}
    (hkey : (r.records id).key = key) (hlt : id < r.count) (hid : id ∉ lists key) :
    ∃ l l', lists key = l ++ l' ∧
      (∀ a ∈ l, precedes (r.records id) (r.records a) = false) ∧
      (∀ b ∈ l', precedes (r.records id) (r.records b) = true) ∧
      Lists (r.link id) (Function.update lists key (l ++ id :: l')) ∧
      Relinked r (r.link id) (id :: lists key) ∧ ((r.link id).records id).linked = true := by
  set p : ℕ → Bool := fun at_ => !precedes (r.records id) (r.records at_) with hp
  have hdrop : ∀ b ∈ (lists key).dropWhile p, p b = false := by
    refine dropWhile_not (h.ordered key) ?_
    intro a b ha hab
    simp only [hp, Bool.not_eq_false'] at ha ⊢
    exact precedes_of_not ha hab
  have htake : ∀ a ∈ (lists key).takeWhile p, p a = true :=
    fun a ha => List.all_eq_true.mp List.all_takeWhile a ha
  have hsplit : (lists key).takeWhile p ++ (lists key).dropWhile p = lists key :=
    List.takeWhile_append_dropWhile
  have hl : ∀ y ∈ id :: lists key, (r.records y).key = key := by
    intro y hy
    rcases List.mem_cons.mp hy with rfl | hy
    · exact hkey
    · exact h.key key y hy
  refine ⟨(lists key).takeWhile p, (lists key).dropWhile p, hsplit.symm, ?_, ?_, ?_⟩
  · intro a ha
    simpa [hp] using htake a ha
  · intro b hb
    simpa [hp] using hdrop b hb
  have hordered := pairwise_insert (m := r.records) id (by rw [hsplit]; exact h.ordered key)
    (fun a ha => by simpa [hp] using htake a ha) (fun b hb => by simpa [hp] using hdrop b hb)
  -- The search is of the list with the new declaration marked.
  have hlinked := h.linked key
  have hindex := h.index key
  have hnotid : ∀ y ∈ lists key, y ≠ id := fun y hy heq => hid (heq ▸ hy)
  have hheld : ∀ y, ((r.hold id).records y).bare = (r.records y).bare := by
    intro y
    rw [Roster.hold, Roster.modify_records]
    split <;> rfl
  have hlinked' : Linked (r.hold id).records (lists key) := hlinked.congr fun y hy => by
    rw [Roster.hold, Roster.modify_records, if_neg (hnotid y hy)]
  have hp' : (fun at_ => !precedes ((r.hold id).records id) ((r.hold id).records at_)) = p := by
    funext at_
    rw [hp, bare_precedes (hheld id) (hheld at_)]
  rw [Roster.link]
  rw [hkey, show (r.hold id).index key = _ from hindex, hp']
  cases hhead : (lists key).head? with
  | none =>
    have hnil : lists key = [] := List.head?_eq_none_iff.mp hhead
    obtain ⟨halone, hr⟩ := Roster.linkAlone_linked r id key
    rw [hnil] at hl hordered ⊢
    refine ⟨h.replace hr hl rfl halone (fun y hy => hy) ?_ hordered, hr,
      halone.linked id (List.mem_singleton_self id)⟩
    intro y hy
    rw [List.mem_singleton.mp hy]
    exact hlt
  | some first =>
    have hsearch : (r.hold id).search first p = ((lists key).takeWhile p).getLast? :=
      hlinked'.search hhead (h.lt key) hdrop
    have hlt' : ∀ y ∈ (lists key).takeWhile p ++ id :: (lists key).dropWhile p, y < r.count := by
      intro y hy
      rcases List.mem_append.mp hy with hy | hy
      · exact h.lt key y ((List.takeWhile_sublist p).mem hy)
      · rcases List.mem_cons.mp hy with rfl | hy
        · exact hlt
        · exact h.lt key y ((List.dropWhile_sublist p).mem hy)
    simp only [Option.map_some]
    rw [hsearch]
    cases hlast : ((lists key).takeWhile p).getLast? with
    | none =>
      have hnil := List.getLast?_eq_none_iff.mp hlast
      obtain ⟨hcons, hr⟩ := Roster.linkFirst_linked hlinked hhead hid (lists key).length key
      rw [hnil, List.nil_append] at hsplit
      rw [hnil, List.nil_append, hsplit] at hordered hlt' ⊢
      exact ⟨h.replace hr hl rfl hcons (fun y hy => hy) hlt' hordered, hr,
        hcons.linked id List.mem_cons_self⟩
    | some at_ =>
      have hsplit' := hsplit
      rw [← hsplit'] at hlinked hhead hid
      obtain ⟨hinsert, hr⟩ :=
        Roster.linkAfter_linked hlinked hhead hlast hid (lists key).length key
      rw [hsplit] at hr
      refine ⟨h.replace hr hl ?_ hinsert ?_ hlt' hordered, hr,
        hinsert.linked id (List.mem_append_right _ List.mem_cons_self)⟩
      · have hhead' : ((lists key).takeWhile p ++ id :: (lists key).dropWhile p).head? =
            some first := by
          cases htake' : (lists key).takeWhile p with
          | nil =>
            rw [htake'] at hlast
            cases hlast
          | cons a rest =>
            rw [htake'] at hhead
            exact hhead
        have hlength : ((lists key).takeWhile p ++ id :: (lists key).dropWhile p).length =
            (lists key).length + 1 := by
          rw [List.length_append, List.length_cons, ← Nat.add_assoc, ← List.length_append, hsplit]
        rw [hhead', hlength]
        rfl
      · intro y hy
        rw [← hsplit]
        rcases List.mem_append.mp hy with hy | hy
        · exact List.mem_cons_of_mem _ (List.mem_append_left _ hy)
        · rcases List.mem_cons.mp hy with rfl | hy
          · exact List.mem_cons_self
          · exact List.mem_cons_of_mem _ (List.mem_append_right _ hy)

/-! ### A declaration leaves a list -/

/-- A list's first declaration gone. -/
lemma Linked.tail {m m' : ℕ → Record} {l : List ℕ} {id next : ℕ} (h : Linked m (id :: next :: l))
    (hafter : ∀ y ∈ next :: l, (m' y).after = (m y).after)
    (hbefore : ∀ y ∈ next :: l, (m' y).before = if y = next then (m id).before else (m y).before)
    (hhint : ∀ k ∈ (m' next).hint, k = next)
    (hlinked : ∀ y ∈ next :: l, (m' y).linked = (m y).linked) : Linked m' (next :: l) := by
  have hnodup := (List.nodup_cons.mp h.nodup).2
  have hne : ∀ y ∈ next :: l, id ≠ y := fun y hy heq => (List.nodup_cons.mp h.nodup).1 (heq ▸ hy)
  constructor
  · exact hnodup
  · intro y hy
    rw [hafter y hy, h.after y (List.mem_cons_of_mem _ hy), Links.next, if_neg (hne y hy)]
  · intro y hy
    have hprior := prior_erase (l := []) h.nodup hy
    rw [List.nil_append, List.nil_append, List.head?_cons, List.getLast?_nil] at hprior
    rw [hbefore y hy, hprior]
    by_cases hyn : y = next
    · rw [if_pos hyn, if_pos (congrArg some hyn.symm), Option.none_or,
        h.before id List.mem_cons_self, (prior_eq_none_iff h.nodup List.mem_cons_self).mpr rfl,
        Option.none_or, List.getLast?_cons_cons]
    · rw [if_neg hyn, if_neg fun heq => hyn (Option.some.inj heq).symm,
        h.before y (List.mem_cons_of_mem _ hy), List.getLast?_cons_cons]
  · intro f hf k hk
    cases hf
    rw [hhint k hk]
    exact List.mem_cons_self
  · intro y hy
    rw [hlinked y hy, h.linked y (List.mem_cons_of_mem _ hy)]

/-- A list's declaration after another gone. -/
lemma Linked.erase {m m' : ℕ → Record} {l l' : List ℕ} {id first before : ℕ}
    (h : Linked m (l ++ id :: l')) (hf : l.head? = some first) (hlast : l.getLast? = some before)
    (hafter : ∀ y ∈ l ++ l', (m' y).after = if y = before then l'.head? else (m y).after)
    (hbefore : ∀ y ∈ l ++ l',
      (m' y).before = if y = l'.head?.getD first then some before else (m y).before)
    (hhint : ∀ k ∈ (m' first).hint, k ∈ l ++ l')
    (hlinked : ∀ y ∈ l ++ l', (m' y).linked = (m y).linked) : Linked m' (l ++ l') := by
  have hmem : ∀ {y}, y ∈ l ++ l' → y ∈ l ++ id :: l' := by
    intro y hy
    rcases List.mem_append.mp hy with hy | hy
    · exact List.mem_append_left _ hy
    · exact List.mem_append_right _ (List.mem_cons_of_mem _ hy)
  have hnodup : (l ++ l').Nodup := by
    have hmiddle := h.nodup
    rw [List.nodup_middle] at hmiddle
    exact (List.nodup_cons.mp hmiddle).2
  have hhead : (l ++ l').head? = some first := by
    cases l with
    | nil => cases hf
    | cons a l => exact hf
  have hhead' : (l ++ id :: l').head? = some first := by
    cases l with
    | nil => cases hf
    | cons a l => exact hf
  constructor
  · exact hnodup
  · intro y hy
    rw [hafter y hy, next_erase h.nodup hy, hlast, h.after y (hmem hy)]
    by_cases hyb : y = before
    · rw [if_pos hyb, if_pos (congrArg some hyb.symm)]
    · rw [if_neg hyb, if_neg fun heq => hyb (Option.some.inj heq).symm]
  · intro y hy
    rw [hbefore y hy, prior_erase h.nodup hy, hlast, h.before y (hmem hy)]
    cases hl' : l' with
    | nil =>
      -- The one that leaves is the last, and the first holds the one before it.
      have hiff := prior_eq_none_iff h.nodup (hmem hy)
      rw [hl'] at hiff hhead'
      rw [hl', List.append_nil] at hy
      rw [List.head?_nil, Option.getD_none, if_neg (show ¬ none = some y from nofun),
        List.append_nil, hlast, List.getLast?_concat]
      by_cases hyf : y = first
      · rw [if_pos hyf, hiff.mpr (hyf ▸ hhead'), Option.none_or]
      · rw [if_neg hyf]
        cases hprior : Links.prior (l ++ [id]) y with
        | some c => rfl
        | none =>
          rw [hiff.mp hprior] at hhead'
          exact absurd (Option.some.inj hhead') hyf
    | cons b rest =>
      have hend : (l ++ id :: b :: rest).getLast? = (l ++ b :: rest).getLast? := by
        rw [List.getLast?_append_of_ne_nil _ (List.cons_ne_nil _ _), List.getLast?_cons_cons,
          List.getLast?_append_of_ne_nil _ (List.cons_ne_nil _ _)]
      rw [hend, List.head?_cons, Option.getD_some]
      by_cases hyb : y = b
      · rw [if_pos hyb, if_pos (congrArg some hyb.symm), Option.some_or]
      · rw [if_neg hyb, if_neg fun heq => hyb (Option.some.inj heq).symm]
  · intro f hf' k hk
    rw [hhead] at hf'
    cases hf'
    exact hhint k hk
  · intro y hy
    rw [hlinked y hy, h.linked y (hmem hy)]

/-- A declaration leaves its key's list. -/
theorem Lists.unlink {r : Roster} {lists : Key → List ℕ} (h : Lists r lists) {id : ℕ} {key : Key}
    {l l' : List ℕ} (hsplit : lists key = l ++ id :: l') :
    Lists (r.unlink id) (Function.update lists key (l ++ l')) ∧
      Relinked r (r.unlink id) (lists key) ∧ ((r.unlink id).records id).linked = false := by
  have hid : id ∈ lists key := by
    rw [hsplit]
    exact List.mem_append_right _ List.mem_cons_self
  have hkey := h.key key id hid
  have hlinked := h.linked key
  have hindex := h.index key
  have hordered := h.ordered key
  have hsub : (l ++ l').Sublist (lists key) := by
    rw [hsplit]
    exact (List.Sublist.refl l).append (List.sublist_cons_self id l')
  have hlt : ∀ y ∈ l ++ l', y < r.count := fun y hy => h.lt key y (hsub.mem hy)
  have hmem : ∀ y ∈ l ++ l', y ∈ lists key := fun y hy => hsub.mem hy
  have hordered' := hordered.sublist hsub
  have hnodup := hlinked.nodup
  rw [hsplit] at hnodup
  have hidl : id ∉ l := fun hin =>
    (List.nodup_append.mp hnodup).2.2 id hin id List.mem_cons_self rfl
  have hidl' : id ∉ l' := (List.nodup_cons.mp (List.nodup_append.mp hnodup).2.1).1
  have hafter : (r.records id).after = l'.head? := by
    rw [hlinked.after id hid, hsplit, next_split hidl]
  have hbefore : (r.records id).before = l.getLast?.or (lists key).getLast? := by
    rw [hlinked.before id hid, hsplit, prior_split hidl']
  have hr : Relinked r (r.modify id fun record => { record with linked := false }) (lists key) :=
    (Relinked.refl r _).modify hid fun record => rfl
  -- The record no longer held, which links as it did.
  obtain ⟨r₁, hr₁⟩ : ∃ r₁, r₁ = r.modify id fun record => { record with linked := false } :=
    ⟨_, rfl⟩
  have hm : ∀ y, r₁.records y = if y = id then { r.records y with linked := false }
      else r.records y := fun y => by rw [hr₁, Roster.modify_records]
  have hafter₁ : (r₁.records id).after = l'.head? := by
    rw [hm, if_pos rfl]
    exact hafter
  have hbefore₁ : (r₁.records id).before = l.getLast?.or (lists key).getLast? := by
    rw [hm, if_pos rfl]
    exact hbefore
  rw [← hr₁] at hr
  have hone : r₁.index = r.index := by
    rw [hr₁]
    rfl
  cases l with
  | nil =>
    rw [List.nil_append] at hsplit hlt hmem hordered' ⊢
    cases l' with
    | nil =>
      have heq : r.unlink id = r₁.setIndex key none := by
        rw [Roster.unlink, hkey, hindex, hsplit, ← hr₁]
        rfl
      rw [heq]
      refine ⟨h.replace (hr.setIndex key none) (h.key key) ?_ ?_ hmem hlt hordered',
        hr.setIndex key none, ?_⟩
      · rw [Roster.setIndex, hone]
        rfl
      · exact ⟨List.nodup_nil, nofun, nofun, nofun, nofun⟩
      · rw [Roster.setIndex_records, hm, if_pos rfl]
    | cons next rest =>
      have hne : next ≠ id := fun heq => hidl' (heq ▸ List.mem_cons_self)
      have heq : r.unlink id = (r₁.modify next fun record =>
          { record with before := (r₁.records id).before, hint := some next }).setIndex key
            (some (next, rest.length + 1)) := by
        have hhint : (r₁.prior id id).or (r₁.records id).after = some next := by
          rw [Roster.prior, if_pos rfl, Option.none_or, hafter₁]
          rfl
        rw [Roster.unlink, hkey, hindex, hsplit, ← hr₁]
        dsimp only [List.head?_cons, Option.map_some, List.length_cons]
        rw [hhint, Nat.add_sub_cancel, if_neg (Nat.succ_ne_zero _), if_pos rfl, Roster.unlinkFirst, hafter₁]
        rfl
      have hrelinked : Relinked r (r.unlink id) (lists key) := by
        rw [heq]
        refine (hr.modify (hmem next List.mem_cons_self) ?_).setIndex _ _
        intro record
        rfl
      rw [hsplit] at hlinked
      refine ⟨h.replace hrelinked (h.key key) ?_ ?_ hmem hlt hordered', hrelinked, ?_⟩
      · rw [heq, Roster.setIndex, Roster.modify_index, hone]
        rfl
      · rw [heq, Roster.setIndex_records]
        refine hlinked.tail ?_ ?_ ?_ ?_
        · intro y hy
          have hyid : y ≠ id := fun heq => hidl' (heq ▸ hy)
          simp only [Roster.modify_records, hm]
          grind
        · intro y hy
          have hyid : y ≠ id := fun heq => hidl' (heq ▸ hy)
          simp only [Roster.modify_records, hm]
          grind
        · simp only [Roster.modify_records, if_true]
          grind
        · intro y hy
          have hyid : y ≠ id := fun heq => hidl' (heq ▸ hy)
          simp only [Roster.modify_records, hm]
          grind
      · rw [heq, Roster.setIndex_records, Roster.modify_records, if_neg hne.symm, hm, if_pos rfl]
  | cons first l =>
    have hne : first ≠ id := fun heq => hidl (heq ▸ List.mem_cons_self)
    obtain ⟨before, hlast⟩ : ∃ before, (first :: l).getLast? = some before :=
      Option.ne_none_iff_exists'.mp (by simp)
    have hbid : before ≠ id := fun heq => hidl (heq ▸ List.mem_of_getLast? hlast)
    have hbefore₁ : (r₁.records id).before = some before := by
      rw [hbefore₁, hlast, Option.some_or]
    have hnext : l'.head?.getD first ∈ (first :: l) ++ l' := by
      cases l' with
      | nil => exact List.mem_append_left _ List.mem_cons_self
      | cons b l' => exact List.mem_append_right _ List.mem_cons_self
    have hnid : l'.head?.getD first ≠ id := by
      intro heq
      rw [heq] at hnext
      rcases List.mem_append.mp hnext with hin | hin
      · exact hidl hin
      · exact hidl' hin
    have hprior : r₁.prior first id = some before := by
      rw [Roster.prior, if_neg hne.symm, hbefore₁]
    have heq : r.unlink id = (((r₁.modify first fun record =>
        { record with hint := some before }).modify before fun record =>
          { record with after := l'.head? }).modify (l'.head?.getD first) fun record =>
            { record with before := some before }).setIndex key
              (some (first, (first :: l ++ l').length)) := by
      have hlength : (first :: l ++ id :: l').length - 1 = (first :: l ++ l').length := by
        rw [List.length_append, List.length_append]
        rfl
      rw [Roster.unlink, hkey, hindex, hsplit, ← hr₁]
      dsimp only [List.cons_append, List.head?_cons, Option.map_some]
      rw [← List.cons_append, hlength, if_neg (by simp), if_neg hne.symm, hprior, Option.some_or,
        Roster.unlinkAfter, hafter₁, hlength]
      rfl
    have hfirst : first ∈ first :: l ++ l' := List.mem_append_left _ List.mem_cons_self
    have hrelinked : Relinked r (r.unlink id) (lists key) := by
      rw [heq]
      refine Relinked.setIndex (Relinked.modify (Relinked.modify (Relinked.modify hr
        (hmem first hfirst) ?_) (hmem before ?_) ?_) (hmem _ hnext) ?_) _ _
      · intro record
        rfl
      · exact List.mem_append_left _ (List.mem_of_getLast? hlast)
      · intro record
        rfl
      · intro record
        rfl
    have hnotid : ∀ y ∈ first :: l ++ l', y ≠ id := by
      rintro y hy rfl
      rcases List.mem_append.mp hy with hin | hin
      · exact hidl hin
      · exact hidl' hin
    rw [hsplit] at hlinked
    refine ⟨h.replace hrelinked (h.key key) ?_ ?_ hmem hlt hordered', hrelinked, ?_⟩
    · rw [heq, Roster.setIndex, Roster.modify_index, Roster.modify_index, Roster.modify_index, hone]
      rfl
    · rw [heq, Roster.setIndex_records]
      have hkept : ∀ {α : Type} (g : Record → α), (∀ record, g { record with linked := false } =
          g record) → ∀ y, g (r₁.records y) = g (r.records y) := by
        intro α g hg y
        rw [hr₁]
        exact Roster.modify_field g hg y
      refine hlinked.erase rfl hlast ?_ ?_ ?_ ?_
      · intro y hy
        rw [Roster.modify_field Record.after, Roster.modify_records]
        · split
          · rfl
          · rw [Roster.modify_field Record.after, hkept Record.after]
            · intro record
              rfl
            · intro record
              rfl
        · intro record
          rfl
      · intro y hy
        rw [Roster.modify_records]
        split
        · rfl
        · rw [Roster.modify_field Record.before, Roster.modify_field Record.before,
            hkept Record.before]
          · intro record
            rfl
          · intro record
            rfl
          · intro record
            rfl
      · intro k hk
        rw [Roster.modify_field Record.hint, Roster.modify_field Record.hint, Roster.modify_records,
          if_pos rfl] at hk
        · cases hk
          exact List.mem_append_left _ (List.mem_of_getLast? hlast)
        · intro record
          rfl
        · intro record
          rfl
      · intro y hy
        rw [Roster.modify_field Record.linked, Roster.modify_field Record.linked,
          Roster.modify_field Record.linked, hm, if_neg (hnotid y hy)]
        · intro record
          rfl
        · intro record
          rfl
        · intro record
          rfl
    · rw [heq, Roster.setIndex_records, Roster.modify_records, if_neg hnid.symm,
        Roster.modify_records, if_neg hbid.symm, Roster.modify_records, if_neg hne.symm, hm,
        if_pos rfl]

end MarkdownCore.Declarations
