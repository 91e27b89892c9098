import Mathlib.Data.Set.Card
import MarkdownCore.Map.KeyTreePut

/-!
# The ordered key index as a map

What the index holds after a run is read off the keys entered, written and removed in it. Its
searches give a key's entry and rank, the entry of a rank, and the entries from a key on.
-/

namespace MarkdownCore.KeyTree

open MarkdownCore.Order (numbers)

variable {V : Type}

/-- A map from keys to the number and the pointer of their entries. -/
abbrev Contents (V : Type) := List UInt8 → Option (ℕ × Option V)

/-- What a call leaves of a map, when it answers with an entry or not. -/
def Call.onMap (m : Contents V) (answered : Bool) : Call V → Contents V
  | .entry _ key =>
    if answered ∧ m key.key = none then Function.update m key.key (some (0, none)) else m
  | .put key extra value =>
    if m key.key = none then m else Function.update m key.key (some (extra, value))
  | .remove key => Function.update m key.key none

/-- The tree and the map after calls. -/
def run (s : Tree V × Contents V) : List (Call V) → Option (Tree V × Contents V)
  | [] => some s
  | call :: calls =>
    (call.apply s.1).bind fun answer =>
      run (answer.1, call.onMap s.2 answer.2.isSome) calls

/-- The keys of a map. -/
def Contents.keys (m : Contents V) : Set (List UInt8) := {key | m key ≠ none}

/-- The keys of a map before a key. -/
def Contents.before (m : Contents V) (key : KeyEntry V) : Set (List UInt8) :=
  {other | m other ≠ none ∧ numbers other < sortKey key}

/-- The entry is the one a map has for its key. -/
def Contents.Has (m : Contents V) (e : KeyEntry V) : Prop := m e.key = some (e.extra, e.value)

/-- The tree is a sorted map with ranks. -/
structure SortedMap (tree : Tree V) (m : Contents V) : Prop where
  /-- The tree counts the keys. -/
  count : m.keys.Finite ∧ tree.count = m.keys.ncard
  /-- A search finds a key's entry when the key is held, and gives the number of the keys before
  it. -/
  find : ∀ key, ∃ found, tree.find key = some (found, (m.before key).ncard) ∧
    (found = none ↔ m key.key = none) ∧ ∀ place, found = some place →
      ∃ e, tree.entryAt place = some e ∧ e.key = key.key ∧ m.Has e
  /-- The entry of a rank is the one with as many keys before it. -/
  atRank : ∀ rank < tree.count, ∃ e, tree.at' rank = some e ∧ m.Has e ∧
    (m.before e).ncard = rank
  /-- A walk from a key visits the entries that are not before it, in order, and ends. -/
  walk : ∀ key, ∃ cursor, ∃ l : List (KeyEntry V), tree.seek key = some cursor ∧
    (l.Pairwise fun a b => sortKey a < sortKey b) ∧
    (∀ e, e ∈ l ↔ m.Has e ∧ sortKey key ≤ sortKey e) ∧
    ∀ calls, tree.walk calls cursor = some ((List.range calls).map fun n => l[n]?)
  /-- Where storage is had, an insertion gives the key's entry, made when the key was not held. -/
  entry : ∀ granted key, (∀ n, granted n = true) → ∃ tree' place made,
    tree.entry granted key = some (tree', some place, made) ∧ (made = true ↔ m key.key = none) ∧
      ∃ e, tree'.entryAt place = some e ∧ e.key = key.key ∧
        (e.extra, e.value) = (m key.key).getD (0, none)
  /-- Where it is not, the insertion changes nothing. -/
  refused : ∀ granted key tree' made, tree.entry granted key = some (tree', none, made) →
    tree' = tree

/-! ### Lists as maps -/

/-- The list has the map's entries. -/
def Lists (l : List (KeyEntry V)) (m : Contents V) : Prop := ∀ e, e ∈ l ↔ m.Has e

lemma ext_entry {a b : KeyEntry V} (hkey : a.key = b.key) (hextra : a.extra = b.extra)
    (hvalue : a.value = b.value) : a = b := by
  obtain ⟨head, key, extra, value, hhead⟩ := a
  obtain ⟨head', key', extra', value', hhead'⟩ := b
  subst hkey hextra hvalue hhead hhead'
  rfl

lemma Lists.exists_iff {l : List (KeyEntry V)} {m : Contents V} (h : Lists l m)
    (key : List UInt8) : m key ≠ none ↔ ∃ e ∈ l, e.key = key := by
  constructor
  · intro hne
    obtain ⟨⟨extra, value⟩, hcontent⟩ := Option.ne_none_iff_exists'.mp hne
    exact ⟨⟨Order.keyHead key, key, extra, value, rfl⟩, (h _).mpr hcontent, rfl⟩
  · rintro ⟨e, he, rfl⟩
    rw [(h e).mp he]
    exact Option.some_ne_none _

lemma Lists.eq_none {l : List (KeyEntry V)} {m : Contents V} (h : Lists l m) {key : List UInt8}
    (hnone : ∀ e ∈ l, e.key ≠ key) : m key = none := by
  by_contra hne
  obtain ⟨e, he, hkey⟩ := (h.exists_iff key).mp hne
  exact hnone e he hkey

/-- A list that changes at one key is the map changed there. -/
lemma Lists.update {l l' : List (KeyEntry V)} {m : Contents V} (h : Lists l m)
    {key : List UInt8} {content : Option (ℕ × Option V)}
    (hothers : ∀ e : KeyEntry V, e.key ≠ key → (e ∈ l' ↔ e ∈ l))
    (hkey : ∀ e : KeyEntry V, e.key = key → (e ∈ l' ↔ content = some (e.extra, e.value))) :
    Lists l' (Function.update m key content) := by
  intro e
  by_cases heq : e.key = key
  · rw [hkey e heq, Contents.Has, heq, Function.update_self]
  · rw [hothers e heq, h e, Contents.Has, Contents.Has, Function.update_of_ne heq]

lemma ne_of_sorted {first last : List (KeyEntry V)} {e : KeyEntry V}
    (h : (first ++ e :: last).Pairwise fun a b => sortKey a < sortKey b) :
    ∀ x ∈ first ++ last, x.key ≠ e.key := by
  intro x hx heq
  obtain ⟨-, hlast, hfirst⟩ := List.pairwise_append.mp h
  rcases List.mem_append.mp hx with hx | hx
  · exact (hfirst x hx e List.mem_cons_self).ne (sortKey_inj.mpr heq)
  · exact ((List.pairwise_cons.mp hlast).1 x hx).ne' (sortKey_inj.mpr heq)

/-- The keys of the entries of a sorted list are as many as the entries. -/
lemma ncard_keys {l : List (KeyEntry V)} (h : l.Pairwise fun a b => sortKey a < sortKey b)
    (p : KeyEntry V → Bool) :
    {key | ∃ e ∈ l, p e = true ∧ e.key = key}.Finite ∧
      {key | ∃ e ∈ l, p e = true ∧ e.key = key}.ncard = l.countP p := by
  have hset : {key | ∃ e ∈ l, p e = true ∧ e.key = key} =
      (((l.filter p).map fun e => e.key).toFinset : Set (List UInt8)) := by
    ext key
    simp [and_assoc]
  have hnodup : ((l.filter p).map fun e => e.key).Nodup := by
    rw [List.Nodup, List.pairwise_map]
    exact (h.sublist List.filter_sublist).imp fun hlt heq => hlt.ne (sortKey_inj.mpr heq)
  rw [hset]
  refine ⟨Finset.finite_toSet _, ?_⟩
  rw [Set.ncard_coe_finset, List.toFinset_card_of_nodup hnodup, List.length_map,
    List.countP_eq_length_filter]

lemma Lists.keys_eq {l : List (KeyEntry V)} {m : Contents V} (h : Lists l m) :
    m.keys = {key | ∃ e ∈ l, true = true ∧ e.key = key} := by
  ext key
  simp [Contents.keys, h.exists_iff]

lemma Lists.before_eq {l : List (KeyEntry V)} {m : Contents V} (h : Lists l m)
    (key : KeyEntry V) :
    m.before key =
      {other | ∃ e ∈ l, decide (sortKey e < sortKey key) = true ∧ e.key = other} := by
  ext other
  change m other ≠ none ∧ numbers other < sortKey key ↔
    ∃ e ∈ l, decide (sortKey e < sortKey key) = true ∧ e.key = other
  rw [h.exists_iff]
  constructor
  · rintro ⟨⟨e, he, rfl⟩, hlt⟩
    exact ⟨e, he, decide_eq_true hlt, rfl⟩
  · rintro ⟨e, he, hlt, rfl⟩
    exact ⟨⟨e, he, rfl⟩, of_decide_eq_true hlt⟩

/-! ### Runs -/

lemma Tree.Good.sorted {tree : Tree V} (h : tree.Good) :
    tree.entries.Pairwise fun a b => sortKey a < sortKey b := by
  rw [Tree.entries]
  cases hroot : tree.root with
  | none => exact List.Pairwise.nil
  | some root => exact (h.stands root hroot).ordered.sorted

/-- A call changes the list as it does the map. -/
lemma Tree.Good.step {tree : Tree V} {m : Contents V} (h : tree.Good)
    (hlists : Lists tree.entries m) (call : Call V) :
    ∃ answer, call.apply tree = some answer ∧ answer.1.Good ∧
      Lists answer.1.entries (call.onMap m answer.2.isSome) := by
  cases call with
  | entry granted key =>
    obtain ⟨answer, hentry, hgood, hentered⟩ := h.entry_spec granted key
    refine ⟨(answer.1, answer.2.1), by rw [Call.apply, hentry, Option.map_some], hgood, ?_⟩
    cases hentered with
    | held he hkey hplace =>
      have hheld : m key.key ≠ none := (hlists.exists_iff _).mpr ⟨_, he, hkey⟩
      rw [Call.onMap, if_neg fun hnone => hheld hnone.2]
      exact hlists
    | refused hnone hn =>
      rw [Call.onMap, if_neg fun hnone => Bool.false_ne_true hnone.1]
      exact hlists
    | @made tree' place first last hentries hentries' hplace =>
      have hsorted := hgood.sorted
      rw [hentries'] at hsorted
      have hne := ne_of_sorted hsorted
      have hnone : m key.key = none := hlists.eq_none (by rw [hentries]; exact hne)
      rw [Call.onMap, if_pos ⟨rfl, hnone⟩]
      refine hlists.update (fun e he => ?_) fun e he => ?_
      · rw [hentries, hentries', List.mem_append, List.mem_append, List.mem_cons]
        refine or_congr_right (or_iff_right ?_)
        rintro rfl
        exact he rfl
      · have hnot : e ∉ first ++ last := fun hin => hne e hin he
        rw [List.mem_append, not_or] at hnot
        rw [hentries', List.mem_append, List.mem_cons, or_iff_right hnot.1, or_iff_left hnot.2,
          Option.some_inj, Prod.mk.injEq]
        constructor
        · rintro rfl
          exact ⟨rfl, rfl⟩
        · intro hsame
          exact ext_entry he hsame.1.symm hsame.2.symm
  | put key extra value =>
    obtain ⟨tree', hput, hgood, hcases⟩ := h.put_spec key extra value
    refine ⟨(tree', none), by rw [Call.apply, hput, Option.map_some], hgood, ?_⟩
    rcases hcases with ⟨rfl, hnone⟩ | ⟨first, held, last, hkey, hentries, hentries'⟩
    · rw [Call.onMap, if_pos (hlists.eq_none hnone)]
      exact hlists
    · have hsorted := h.sorted
      rw [hentries] at hsorted
      have hne := ne_of_sorted hsorted
      have hheld : m key.key ≠ none :=
        (hlists.exists_iff _).mpr ⟨held, by rw [hentries]; simp, hkey⟩
      rw [Call.onMap, if_neg hheld]
      refine hlists.update (fun e he => ?_) fun e he => ?_
      · rw [hentries, hentries', List.mem_append, List.mem_append, List.mem_cons, List.mem_cons]
        refine or_congr_right (or_congr_left ?_)
        constructor
        · rintro rfl
          exact absurd hkey he
        · rintro rfl
          exact absurd hkey he
      · have hnot : e ∉ first ++ last := fun hin => hne e hin (he.trans hkey.symm)
        rw [List.mem_append, not_or] at hnot
        rw [hentries', List.mem_append, List.mem_cons, or_iff_right hnot.1, or_iff_left hnot.2,
          Option.some_inj, Prod.mk.injEq]
        constructor
        · rintro rfl
          exact ⟨rfl, rfl⟩
        · intro hsame
          exact ext_entry (he.trans hkey.symm) hsame.1.symm hsame.2.symm
  | remove key =>
    obtain ⟨tree', hremove, hgood, hcases⟩ := h.remove_spec key
    refine ⟨(tree', none), by rw [Call.apply, hremove, Option.map_some], hgood, ?_⟩
    rcases hcases with ⟨rfl, hnone⟩ | ⟨first, held, last, hkey, hentries, hentries'⟩
    · rw [Call.onMap, Function.update_eq_self_iff.mpr (hlists.eq_none hnone).symm]
      exact hlists
    · have hsorted := h.sorted
      rw [hentries] at hsorted
      have hne := ne_of_sorted hsorted
      refine hlists.update (fun e he => ?_) fun e he => ?_
      · rw [hentries, hentries', List.mem_append, List.mem_append, List.mem_cons]
        refine or_congr_right (or_iff_right ?_).symm
        rintro rfl
        exact he hkey
      · refine iff_of_false ?_ (Option.some_ne_none _).symm
        rw [hentries']
        exact fun hin => hne e hin (he.trans hkey.symm)

lemma Tree.Good.run {tree : Tree V} {m : Contents V} (h : tree.Good)
    (hlists : Lists tree.entries m) (calls : List (Call V)) :
    ∃ s, run (tree, m) calls = some s ∧ s.1.Good ∧ Lists s.1.entries s.2 := by
  induction calls generalizing tree m with
  | nil => exact ⟨(tree, m), rfl, h, hlists⟩
  | cons call calls ih =>
    obtain ⟨answer, happly, hgood, hlists'⟩ := h.step hlists call
    obtain ⟨s, hrun, hs⟩ := ih hgood hlists'
    refine ⟨s, ?_, hs⟩
    rw [KeyTree.run, happly, Option.bind_some, hrun]

/-- In a sorted list the entries before a place are those before its entry. -/
lemma countP_lt_getElem {l : List (KeyEntry V)}
    (h : l.Pairwise fun a b => sortKey a < sortKey b) {n : ℕ} {e : KeyEntry V}
    (hget : l[n]? = some e) : l.countP (fun x => decide (sortKey x < sortKey e)) = n := by
  obtain ⟨hlt, rfl⟩ := List.getElem?_eq_some_iff.mp hget
  have hsplit : l = l.take n ++ l[n] :: l.drop (n + 1) := by
    rw [← List.drop_eq_getElem_cons hlt, List.take_append_drop]
  have hsorted := h
  rw [hsplit] at hsorted
  obtain ⟨-, hlast, hfirst⟩ := List.pairwise_append.mp hsorted
  have hbefore : (l.take n).countP (fun x => decide (sortKey x < sortKey l[n])) =
      (l.take n).length :=
    List.countP_eq_length.mpr fun x hx =>
      decide_eq_true (hfirst x hx _ List.mem_cons_self)
  have hafter :
      (l[n] :: l.drop (n + 1)).countP (fun x => decide (sortKey x < sortKey l[n])) = 0 := by
    refine List.countP_eq_zero.mpr fun x hx => ?_
    rw [decide_eq_true_eq, not_lt]
    rcases List.mem_cons.mp hx with rfl | hx
    · exact le_rfl
    · exact ((List.pairwise_cons.mp hlast).1 x hx).le
  have hall : l.countP (fun x => decide (sortKey x < sortKey l[n])) =
      (l.take n ++ l[n] :: l.drop (n + 1)).countP fun x => decide (sortKey x < sortKey l[n]) :=
    congrArg (List.countP _) hsplit
  rw [hall, List.countP_append, hbefore, hafter, Nat.add_zero, List.length_take,
    Nat.min_eq_left hlt.le]

lemma Tree.Good.sortedMap {tree : Tree V} {m : Contents V} (h : tree.Good)
    (hlists : Lists tree.entries m) : SortedMap tree m := by
  have hsorted := h.sorted
  have hrank : ∀ key : KeyEntry V, (m.before key).ncard =
      tree.entries.countP fun e => decide (sortKey e < sortKey key) := by
    intro key
    rw [hlists.before_eq key]
    exact (ncard_keys hsorted _).2
  constructor
  · rw [hlists.keys_eq, h.count]
    obtain ⟨hfinite, hncard⟩ := ncard_keys hsorted fun _ => true
    exact ⟨hfinite, by rw [hncard, List.countP_true]⟩
  · intro key
    obtain ⟨found, hfind, hsome, hnone⟩ := h.find_spec key
    refine ⟨found, by rw [hfind, hrank], ⟨fun hf => hlists.eq_none (hnone hf), ?_⟩, ?_⟩
    · intro hm
      cases hfound : found with
      | none => rfl
      | some place =>
        obtain ⟨e, he, -, hkey⟩ := hsome place hfound
        exact absurd hm ((hlists.exists_iff _).mpr ⟨e, he, hkey⟩)
    · intro place hplace
      obtain ⟨e, he, hentry, hkey⟩ := hsome place hplace
      exact ⟨e, hentry, hkey, (hlists e).mp he⟩
  · intro rank hlt
    rw [h.count] at hlt
    have hget : tree.entries[rank]? = some tree.entries[rank] := List.getElem?_eq_getElem hlt
    refine ⟨tree.entries[rank], (h.at_spec hlt).trans hget,
      (hlists _).mp (List.getElem_mem hlt), ?_⟩
    rw [hrank, countP_lt_getElem hsorted hget]
  · intro key
    obtain ⟨cursor, first, last, hseek, hentries, hfirst, hlast, hwalk⟩ := h.seek_spec key
    rw [hentries] at hsorted
    refine ⟨cursor, last, hseek, (List.pairwise_append.mp hsorted).2.1, fun e => ?_, hwalk⟩
    rw [← hlists e, hentries, List.mem_append]
    constructor
    · exact fun he => ⟨Or.inr he, hlast e he⟩
    · exact fun ⟨he, hle⟩ => he.resolve_left fun hin => absurd (hfirst e hin) (not_lt.mpr hle)
  · intro granted key hgranted
    obtain ⟨answer, hentry, -, hentered⟩ := h.entry_spec granted key
    cases hentered with
    | held he hkey hplace =>
      have hheld : m key.key ≠ none := (hlists.exists_iff _).mpr ⟨_, he, hkey⟩
      refine ⟨tree, _, false, hentry, iff_of_false Bool.false_ne_true hheld, _, hplace, hkey, ?_⟩
      rw [← hkey, (hlists _).mp he]
      rfl
    | refused hnone hn => exact absurd (hgranted _) (Bool.eq_false_iff.mp hn)
    | @made tree' place first last hentries hentries' hplace =>
      have hgood : tree'.Good := by
        obtain ⟨answer', hentry', hgood', -⟩ := h.entry_spec granted key
        rw [hentry] at hentry'
        cases hentry'
        exact hgood'
      have hsorted' := hgood.sorted
      rw [hentries'] at hsorted'
      have hnone : m key.key = none := hlists.eq_none (by
        rw [hentries]
        exact @ne_of_sorted _ first last (made key) hsorted')
      refine ⟨tree', place, true, hentry, iff_of_true rfl hnone, _, hplace, rfl, ?_⟩
      rw [hnone]
      rfl
  · intro granted key tree' made hentry
    obtain ⟨answer, hentry', -, hentered⟩ := h.entry_spec granted key
    rw [hentry] at hentry'
    cases hentry'
    cases hentered
    rfl

/-- The ordered index is a sorted map with ranks, after any calls with any storage: it holds the
keys entered and not since removed, and an insertion without storage changes nothing. -/
theorem sorted_map_of_run (calls : List (Call V)) :
    ∃ tree m, run (Tree.empty, fun _ => none) calls = some (tree, m) ∧ SortedMap tree m := by
  have hnone : Lists (Tree.empty : Tree V).entries fun _ => none := by
    intro e
    exact iff_of_false List.not_mem_nil (Option.some_ne_none _).symm
  obtain ⟨s, hrun, hgood, hlists⟩ := good_empty.run hnone calls
  exact ⟨s.1, s.2, hrun, hgood.sortedMap hlists⟩

end MarkdownCore.KeyTree
