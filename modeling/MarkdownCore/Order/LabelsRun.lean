import Mathlib.Data.List.Lex
import Mathlib.Tactic.Ring
import MarkdownCore.Order.Labels

/-!
# The label sort sorts

The runs' ends say where the runs part the entries. A pass writes the runs merged two by two to the
other array and their ends over the runs' own, which it has read; what the arrays change places
for is one run in the end. The order of two entries is their labels' (`labelBefore_eq`).
-/

namespace MarkdownCore.Order

open StableSort

section Runs

variable {α κ : Type*} [LinearOrder κ] {key : α → κ} {before : α → α → Bool}

/-! ### Arrays -/

/-- What a write changes. -/
lemma writeAt_spec {β : Type*} {array : List β} {index : ℕ} (h : index < array.length) (value : β) :
    ∃ array', writeAt array index value = some array' ∧ array'.length = array.length ∧
      array'.take (index + 1) = array.take index ++ [value] ∧
      array'.take index = array.take index ∧ ∀ n, index < n → array'.drop n = array.drop n := by
  refine ⟨array.set index value, if_pos h, List.length_set, ?_, ?_, ?_⟩
  · rw [List.take_add_one, List.getElem?_set_self h, List.take_set_of_le le_rfl]
    rfl
  · exact List.take_set_of_le le_rfl
  · exact fun n hn => List.drop_set_of_lt hn

/-- The entries between two places, the first of them apart. -/
lemma between_cons {l : List α} {i n : ℕ} (hi : i < n) (hn : n ≤ l.length) :
    ∃ a, l[i]? = some a ∧ (l.take n).drop i = a :: (l.take n).drop (i + 1) := by
  have hlt : i < (l.take n).length := by
    rw [List.length_take]
    omega
  refine ⟨l[i], List.getElem?_eq_getElem _, ?_⟩
  rw [List.drop_eq_getElem_cons hlt, List.getElem_take]

lemma between_nil (l : List α) {i n : ℕ} (h : n ≤ i) : (l.take n).drop i = [] := by
  apply List.drop_eq_nil_of_le
  rw [List.length_take]
  omega

/-! ### Merging two runs -/

/-- The merge of two runs is written over the spare array's places of them. -/
lemma mergeFrom_eq (hbefore : ∀ a b, before a b = decide (key a < key b)) {entries : List α}
    {middle high : ℕ} (hmiddle : middle ≤ entries.length) (hhigh : high ≤ entries.length)
    {fuel left right out : ℕ} {spare : List α} (hfuel : middle - left + (high - right) ≤ fuel)
    (hroom : out + (middle - left) + (high - right) ≤ spare.length) :
    mergeFrom before entries middle high fuel left right out spare =
      some (spare.take out ++
        (((entries.take middle).drop left).merge ((entries.take high).drop right) (le key) ++
          spare.drop (out + (middle - left) + (high - right)))) := by
  induction fuel generalizing left right out spare with
  | zero =>
    rw [between_nil entries (by omega), between_nil entries (by omega), List.nil_merge,
      List.nil_append, show out + (middle - left) + (high - right) = out by omega,
      List.take_append_drop, mergeFrom]
  | succ fuel ih =>
    rw [mergeFrom]
    split
    next hboth =>
      obtain ⟨b, hb, hright⟩ := between_cons hboth.2 hhigh
      obtain ⟨a, ha, hleft⟩ := between_cons hboth.1 hmiddle
      rw [hb, ha, Option.bind_some, Option.bind_some, hbefore]
      split
      next hlt =>
        obtain ⟨spare', hwrite, hlength, htake, -, hdrop⟩ :=
          @writeAt_spec _ spare out (by omega) b
        have hle : ¬ le key a b = true := by simpa [le] using hlt
        rw [hwrite, Option.bind_some, ih (by omega) (by omega), htake, hdrop _ (by omega), hleft,
          hright, List.cons_merge_cons_neg _ _ _ hle, List.append_assoc, List.cons_append,
          show out + 1 + (middle - left) + (high - (right + 1)) =
            out + (middle - left) + (high - right) by omega]
        rfl
      next hlt =>
        obtain ⟨spare', hwrite, hlength, htake, -, hdrop⟩ :=
          @writeAt_spec _ spare out (by omega) a
        have hle : le key a b = true := by simpa [le] using hlt
        rw [hwrite, Option.bind_some, ih (by omega) (by omega), htake, hdrop _ (by omega), hleft,
          hright, List.cons_merge_cons_pos _ _ _ hle, List.append_assoc, List.cons_append,
          show out + 1 + (middle - (left + 1)) + (high - right) =
            out + (middle - left) + (high - right) by omega]
        rfl
    next hone =>
      split
      next hlt =>
        obtain ⟨a, ha, hleft⟩ := between_cons hlt hmiddle
        obtain ⟨spare', hwrite, hlength, htake, -, hdrop⟩ :=
          @writeAt_spec _ spare out (by omega) a
        have hright := between_nil entries (show high ≤ right by omega)
        rw [ha, Option.bind_some, hwrite, Option.bind_some, ih (by omega) (by omega), htake,
          hdrop _ (by omega), hleft, hright, List.merge_right, List.merge_right,
          List.append_assoc, List.cons_append,
          show out + 1 + (middle - (left + 1)) + (high - right) =
            out + (middle - left) + (high - right) by omega]
        rfl
      next hge =>
        have hleft := between_nil entries (show middle ≤ left by omega)
        split
        next hlt =>
          obtain ⟨b, hb, hright⟩ := between_cons hlt hhigh
          obtain ⟨spare', hwrite, hlength, htake, -, hdrop⟩ :=
            @writeAt_spec _ spare out (by omega) b
          rw [hb, Option.bind_some, hwrite, Option.bind_some, ih (by omega) (by omega), htake,
            hdrop _ (by omega), hleft, hright, List.nil_merge, List.nil_merge, List.append_assoc,
            List.cons_append, show out + 1 + (middle - left) + (high - (right + 1)) =
              out + (middle - left) + (high - right) by omega]
          rfl
        next hge' =>
          have hright := between_nil entries (show high ≤ right by omega)
          rw [hleft, hright, List.nil_merge, List.nil_append,
            show out + (middle - left) + (high - right) = out by omega, List.take_append_drop]

/-! ### A pass over the runs -/

/-- Where runs end that follow an offset. -/
def endsOf : ℕ → List (List α) → List ℕ
  | _, [] => []
  | low, run :: rest => (low + run.length) :: endsOf (low + run.length) rest

lemma endsOf_append (low : ℕ) (runs : List (List α)) (run : List α) :
    endsOf low (runs ++ [run]) = endsOf low runs ++ [low + runs.flatten.length + run.length] := by
  induction runs generalizing low with
  | nil => rfl
  | cons first rest ih =>
    rw [List.cons_append, endsOf, ih, endsOf, List.flatten_cons, List.length_append,
      List.cons_append, Nat.add_assoc low]

/-- The entries of a run that follows an offset. -/
lemma between_run {entries run rest : List α} {low : ℕ} (h : entries.drop low = run ++ rest) :
    (entries.take (low + run.length)).drop low = run := by
  rw [List.drop_take, h, Nat.add_sub_cancel_left, List.take_left]

lemma drop_run {entries run rest : List α} {low : ℕ} (h : entries.drop low = run ++ rest) :
    entries.drop (low + run.length) = rest := by
  rw [← List.drop_drop, h, List.drop_left]

lemma run_le {entries run rest : List α} {low : ℕ} (hlow : low ≤ entries.length)
    (h : entries.drop low = run ++ rest) : low + run.length ≤ entries.length := by
  have hlength := congrArg List.length h
  rw [List.length_drop, List.length_append] at hlength
  omega

lemma getElem?_of_prefix {β : Type*} {l l' : List β} {n i : ℕ} (h : l <+: l'.drop n) {b : β}
    (hb : l[i]? = some b) : l'[n + i]? = some b := by
  obtain ⟨rest, hrest⟩ := h
  obtain ⟨hi, -⟩ := List.getElem?_eq_some_iff.mp hb
  rw [← List.getElem?_drop, ← hrest, List.getElem?_append_left hi, hb]

/-- What a pass leaves of runs: the other array, with the runs merged, and their ends. -/
lemma mergeRuns_eq (hbefore : ∀ a b, before a b = decide (key a < key b)) {entries : List α}
    {runs : ℕ} {rest : List (List α)} {fuel run merged low : ℕ} {ends : List ℕ} {spare : List α}
    (hrest : rest.length = runs - run) (hfuel : rest.length ≤ fuel) (hmerged : merged ≤ run)
    (hlow : low ≤ entries.length) (hentries : entries.drop low = rest.flatten)
    (hends : endsOf low rest <+: ends.drop run) (hspare : spare.length = entries.length) :
    ∃ ends', mergeRuns before entries runs fuel run merged low ends spare =
        some (merged + (mergePairs key rest).length, ends',
          spare.take low ++ (mergePairs key rest).flatten) ∧
      ends'.length = ends.length ∧
      ends'.take (merged + (mergePairs key rest).length) =
        ends.take merged ++ endsOf low (mergePairs key rest) := by
  have hdone : ∀ {fuel run merged low : ℕ} {ends : List ℕ} {spare : List α},
      runs - run = 0 → entries.length ≤ low → spare.length = entries.length →
      mergeRuns before entries runs fuel run merged low ends spare =
        some (merged, ends, spare.take low) := by
    intro fuel run merged low ends spare hrun hend hlength
    rw [List.take_of_length_le (by omega)]
    cases fuel with
    | zero => rfl
    | succ fuel => rw [mergeRuns, if_neg (by omega)]
  induction rest using mergePairs.induct generalizing fuel run merged low ends spare with
  | case1 l m rest ih =>
    rw [List.length_cons, List.length_cons] at hrest hfuel
    obtain ⟨fuel, rfl⟩ : ∃ n, fuel = n + 1 := ⟨fuel - 1, by omega⟩
    rw [List.flatten_cons, List.flatten_cons] at hentries
    have hmiddle : ends[run]? = some (low + l.length) := getElem?_of_prefix hends (i := 0) rfl
    have hhigh : ends[run + 1]? = some (low + l.length + m.length) :=
      getElem?_of_prefix hends (i := 1) rfl
    have hentries' := drop_run hentries
    have hle := run_le hlow hentries
    have hle' := run_le hle hentries'
    obtain ⟨hrunLt, -⟩ := List.getElem?_eq_some_iff.mp hmiddle
    obtain ⟨ends', hwrite, hlength, htake, -, hdrop⟩ :=
      @writeAt_spec _ ends merged (by omega) (low + l.length + m.length)
    set high := low + l.length + m.length with hhighEq
    set merge := l.merge m (le key) with hmerge
    have hmergeLen : merge.length = l.length + m.length := List.length_merge _ _ _
    set spare' := spare.take low ++ (merge ++ spare.drop high) with hspare'
    have hpass : mergeRuns before entries runs (fuel + 1) run merged low ends spare =
        mergeRuns before entries runs fuel (run + 2) (merged + 1) high ends' spare' := by
      rw [mergeRuns, if_pos (by omega), hmiddle, Option.bind_some, if_pos (by omega), hhigh,
        Option.bind_some, mergeFrom_eq hbefore hle hle' (by omega) (by omega),
        between_run hentries, between_run hentries', Option.bind_some, hwrite, Option.bind_some,
        show low + (low + l.length - low) + (low + l.length + m.length - (low + l.length)) =
          high by omega]
    have hfront : (spare.take low ++ merge).length = high := by
      rw [List.length_append, List.length_take, hmergeLen]
      omega
    have htaken : spare'.take high = spare.take low ++ merge := by
      rw [hspare', ← List.append_assoc, ← hfront, List.take_left]
    have hlength' : spare'.length = entries.length := by
      rw [hspare', ← List.append_assoc, List.length_append, hfront, List.length_drop]
      omega
    have hdrop' := drop_run hentries'
    have hends' : endsOf high rest <+: ends'.drop (run + 2) := by
      obtain ⟨tail, htail⟩ := hends
      refine ⟨tail, ?_⟩
      rw [hdrop _ (by omega), ← List.drop_drop, ← htail]
      rfl
    obtain ⟨ends'', hrun, hlen, hprefix⟩ := @ih fuel (run + 2) (merged + 1) high ends' spare'
      (by omega) (by omega) (by omega) hle' hdrop' hends' hlength'
    refine ⟨ends'', ?_, hlen.trans hlength, ?_⟩
    · rw [hpass, hrun, htaken, mergePairs, List.length_cons, List.flatten_cons, ← hmerge,
        List.append_assoc, show merged + 1 + (mergePairs key rest).length =
          merged + ((mergePairs key rest).length + 1) by omega]
    · rw [mergePairs, List.length_cons, endsOf, ← hmerge, hmergeLen,
        show merged + ((mergePairs key rest).length + 1) =
          merged + 1 + (mergePairs key rest).length by omega, hprefix, htake, List.append_assoc,
        ← Nat.add_assoc, List.singleton_append]
  | case2 l =>
    rw [List.length_singleton] at hrest hfuel
    obtain ⟨fuel, rfl⟩ : ∃ n, fuel = n + 1 := ⟨fuel - 1, by omega⟩
    rw [List.flatten_singleton] at hentries
    have hentries' : entries.drop low = l ++ [] := by rw [hentries, List.append_nil]
    have hmiddle : ends[run]? = some (low + l.length) := getElem?_of_prefix hends (i := 0) rfl
    have hle := run_le hlow hentries'
    have hend := List.drop_eq_nil_iff.mp (drop_run hentries')
    obtain ⟨hrunLt, -⟩ := List.getElem?_eq_some_iff.mp hmiddle
    obtain ⟨ends', hwrite, hlength, htake, -, hdrop⟩ :=
      @writeAt_spec _ ends merged (by omega) (low + l.length)
    have hfront : (spare.take low ++ l).length = low + l.length := by
      rw [List.length_append, List.length_take]
      omega
    have hpass : mergeRuns before entries runs (fuel + 1) run merged low ends spare =
        some (merged + 1, ends', spare.take low ++ l) := by
      rw [mergeRuns, if_pos (by omega), hmiddle, Option.bind_some, if_neg (by omega),
        Option.bind_some, mergeFrom_eq hbefore hle hle (by omega) (by omega),
        between_run hentries', between_nil entries le_rfl, List.merge_right, Option.bind_some,
        hwrite, Option.bind_some,
        show low + (low + l.length - low) + (low + l.length - (low + l.length)) =
          low + l.length by omega, hdone (by omega) hend, ← List.append_assoc, ← hfront,
        List.take_left]
      rw [← List.append_assoc, List.length_append, hfront, List.length_drop]
      omega
    refine ⟨ends', ?_, hlength, ?_⟩
    · rw [hpass, mergePairs, List.flatten_singleton, List.length_singleton]
    · rw [mergePairs, List.length_singleton, htake, endsOf, endsOf]
  | case3 =>
    rw [List.flatten_nil] at hentries
    have hend := List.drop_eq_nil_iff.mp hentries
    refine ⟨ends, ?_, rfl, ?_⟩
    · rw [hdone hrest.symm hend hspare, mergePairs, List.flatten_nil, List.append_nil]
      rfl
    · rw [mergePairs, endsOf, List.append_nil]
      rfl

/-! ### The passes -/

/-- No more than one run is the entries sorted. -/
lemma sorted_of_one {runs : List (List α)} {entries : List α} (hentries : entries = runs.flatten)
    (hordered : ∀ run ∈ runs, InOrder key run) (hle : runs.length ≤ 1) :
    Sorted key entries entries := by
  refine ⟨Stable.refl _, ?_⟩
  rcases runs with _ | ⟨run, _ | ⟨next, rest⟩⟩
  · rw [hentries]
    exact List.Pairwise.nil
  · rw [hentries, List.flatten_singleton]
    exact hordered run (by simp)
  · simp at hle

/-- Merged two by two until there is one, the runs are the entries sorted. -/
lemma mergeAll_spec (hbefore : ∀ a b, before a b = decide (key a < key b)) {fuel : ℕ}
    {runs : List (List α)} {ends : List ℕ} {entries spare : List α}
    (hfuel : runs.length ≤ fuel + 1) (hentries : entries = runs.flatten)
    (hordered : ∀ run ∈ runs, InOrder key run) (hends : ends.take runs.length = endsOf 0 runs)
    (hspare : spare.length = entries.length) :
    ∃ sorted other, mergeAll before fuel runs.length ends entries spare = some (sorted, other) ∧
      Sorted key entries sorted := by
  induction fuel generalizing runs ends entries spare with
  | zero => exact ⟨entries, spare, rfl, sorted_of_one hentries hordered hfuel⟩
  | succ fuel ih =>
    rw [mergeAll]
    split
    next hmany =>
      have hprefix : endsOf 0 runs <+: ends.drop 0 := by
        rw [List.drop_zero, ← hends]
        exact List.take_prefix _ _
      obtain ⟨ends', hpass, -, hends'⟩ := @mergeRuns_eq _ _ _ key before hbefore entries
        runs.length runs runs.length 0 0 0 ends spare rfl le_rfl le_rfl (Nat.zero_le _) hentries
        hprefix hspare
      rw [hpass, Option.bind_some]
      simp only [Nat.zero_add, List.take_zero, List.nil_append] at hends' ⊢
      have hstable : Stable key entries (mergePairs key runs).flatten := by
        rw [hentries]
        exact stable_mergePairs hordered
      have hfew : (mergePairs key runs).length ≤ fuel + 1 := by
        rw [length_mergePairs]
        omega
      obtain ⟨sorted, other, hrun, hsorted⟩ := @ih (mergePairs key runs) ends' _ entries hfew rfl
        (inOrder_mergePairs hordered) hends' hstable.perm.length_eq.symm
      exact ⟨sorted, other, hrun, hstable.trans hsorted.toStable, hsorted.ordered⟩
    next hfew =>
      exact ⟨entries, spare, rfl, sorted_of_one hentries hordered (not_lt.mp hfew)⟩

/-! ### The runs found -/

/-- The runs found before an end, and the entries after them, the last of them apart. -/
structure Found (key : α → κ) (entries : List α) (stop : ℕ) (ends : List ℕ)
    (runs : List (List α)) (current : List α) (last : α) : Prop where
  split : entries.take stop = runs.flatten ++ (current ++ [last])
  ordered : ∀ run ∈ runs, InOrder key run ∧ run ≠ []
  current : InOrder key (current ++ [last])
  ends_eq : ends.take runs.length = endsOf 0 runs
  length_eq : ends.length = entries.length

lemma length_le_flatten {runs : List (List α)} (h : ∀ run ∈ runs, run ≠ []) :
    runs.length ≤ runs.flatten.length := by
  induction runs with
  | nil => exact le_rfl
  | cons run rest ih =>
    have hrun := List.length_pos_of_ne_nil (h run (by simp))
    have hrest := ih fun run hrun => h run (by simp [hrun])
    rw [List.length_cons, List.flatten_cons, List.length_append]
    omega

namespace Found

variable {entries : List α} {stop : ℕ} {ends : List ℕ} {runs : List (List α)} {current : List α}
  {last : α}

lemma length_split (h : Found key entries stop ends runs current last)
    (hstop : stop ≤ entries.length) : runs.flatten.length + (current.length + 1) = stop := by
  have hlength := congrArg List.length h.split
  rw [List.length_take, List.length_append, List.length_append, List.length_singleton] at hlength
  omega

lemma getElem?_last (h : Found key entries stop ends runs current last)
    (hstop : stop ≤ entries.length) : entries[stop - 1]? = some last := by
  have hlength := h.length_split hstop
  rw [← List.getElem?_take_of_lt (show stop - 1 < stop by omega), h.split, ← List.append_assoc,
    List.getElem?_append_right (by rw [List.length_append]; omega), List.length_append,
    show stop - 1 - (runs.flatten.length + current.length) = 0 by omega]
  rfl

/-- The current run ended there. -/
lemma cut (h : Found key entries stop ends runs current last) (hstop : stop ≤ entries.length) :
    ∃ ends', writeAt ends runs.length stop = some ends' ∧ ends'.length = entries.length ∧
      ends'.take (runs ++ [current ++ [last]]).length = endsOf 0 (runs ++ [current ++ [last]]) := by
  have hlength := h.length_split hstop
  have hle := length_le_flatten fun run hrun => (h.ordered run hrun).2
  obtain ⟨ends', hwrite, hlen, htake, -, -⟩ :=
    @writeAt_spec _ ends runs.length (by rw [h.length_eq]; omega) stop
  refine ⟨ends', hwrite, hlen.trans h.length_eq, ?_⟩
  rw [List.length_append, List.length_singleton, htake, h.ends_eq, endsOf_append,
    List.length_append, List.length_singleton, Nat.zero_add, hlength]

lemma ordered_cut (h : Found key entries stop ends runs current last) :
    ∀ run ∈ runs ++ [current ++ [last]], InOrder key run ∧ run ≠ [] := by
  intro run hrun
  rcases List.mem_append.mp hrun with hrun | hrun
  · exact h.ordered run hrun
  · rw [List.mem_singleton.mp hrun]
    exact ⟨h.current, by simp⟩

/-- An entry before the last of the current run begins another. -/
lemma begins (h : Found key entries stop ends runs current last) (hlt : stop < entries.length)
    {ends' : List ℕ} (hlen : ends'.length = entries.length)
    (hends : ends'.take (runs ++ [current ++ [last]]).length =
      endsOf 0 (runs ++ [current ++ [last]])) :
    Found key entries (stop + 1) ends' (runs ++ [current ++ [last]]) [] entries[stop] where
  split := by
    rw [List.take_add_one, h.split, List.getElem?_eq_getElem hlt, List.flatten_append,
      List.flatten_singleton]
    rfl
  ordered := h.ordered_cut
  current := List.pairwise_singleton _ _
  ends_eq := hends
  length_eq := hlen

/-- Another entry goes on the current run. -/
lemma goesOn (h : Found key entries stop ends runs current last) (hlt : stop < entries.length)
    (hle : key last ≤ key entries[stop]) :
    Found key entries (stop + 1) ends runs (current ++ [last]) entries[stop] where
  split := by
    rw [List.take_add_one, h.split, List.getElem?_eq_getElem hlt, List.append_assoc]
    rfl
  ordered := h.ordered
  current := by
    rw [InOrder, List.pairwise_append]
    refine ⟨h.current, List.pairwise_singleton _ _, ?_⟩
    intro a ha b hb
    rw [List.mem_singleton.mp hb]
    rcases List.mem_append.mp ha with ha | ha
    · have hlast := (List.pairwise_append.mp h.current).2.2 a ha last (List.mem_singleton_self _)
      exact hlast.trans hle
    · rwa [List.mem_singleton.mp ha]
  ends_eq := h.ends_eq
  length_eq := h.length_eq

end Found

/-- The runs found part the entries, and each is in order. -/
lemma findRuns_spec (hbefore : ∀ a b, before a b = decide (key a < key b)) {entries : List α}
    {fuel stop : ℕ} {ends : List ℕ} {runs : List (List α)} {current : List α} {last : α}
    (h : Found key entries stop ends runs current last) (hstop : stop + fuel = entries.length) :
    ∃ ends' runs', findRuns before entries (fuel + 1) stop ends runs.length =
        some (ends', runs'.length) ∧
      entries = runs'.flatten ∧ (∀ run ∈ runs', InOrder key run ∧ run ≠ []) ∧
      ends'.take runs'.length = endsOf 0 runs' := by
  induction fuel generalizing stop ends runs current last with
  | zero =>
    obtain ⟨ends', hwrite, -, hends⟩ := h.cut (by omega)
    refine ⟨ends', runs ++ [current ++ [last]], ?_, ?_, h.ordered_cut, hends⟩
    · rw [findRuns, endsRun, if_pos (by omega), Option.bind_some, if_pos rfl, hwrite,
        Option.bind_some, findRuns, List.length_append, List.length_singleton]
    · rw [List.flatten_append, List.flatten_singleton, ← h.split, List.take_of_length_le (by omega)]
  | succ fuel ih =>
    have hlt : stop < entries.length := by omega
    obtain ⟨ends', hwrite, hlen, hends⟩ := h.cut hlt.le
    rw [findRuns, endsRun, if_neg (by omega), List.getElem?_eq_getElem hlt, Option.bind_some,
      h.getElem?_last hlt.le, Option.map_some, Option.bind_some, hbefore]
    split
    next hcut =>
      have hfound := h.begins hlt hlen hends
      rw [hwrite, Option.bind_some]
      have hnext := ih hfound (by omega)
      rwa [List.length_append, List.length_singleton] at hnext
    next hgoes =>
      have hle : key last ≤ key entries[stop] := by simpa using hgoes
      exact ih (h.goesOn hlt hle) (by omega)

/-- The sort of runs, of any array, with anything in the spare array and the runs' ends. -/
theorem sortRuns_spec (hbefore : ∀ a b, before a b = decide (key a < key b))
    (entries spare : List α) (ends : List ℕ) (hspare : spare.length = entries.length)
    (hends : ends.length = entries.length) :
    ∃ sorted other, ((findRuns before entries entries.length 1 ends 0).bind fun found =>
        mergeAll before entries.length found.2 found.1 entries spare) = some (sorted, other) ∧
      Sorted key entries sorted := by
  cases entries with
  | nil => exact ⟨[], spare, rfl, Stable.refl _, List.Pairwise.nil⟩
  | cons first rest =>
    have hfound : Found key (first :: rest) 1 ends [] [] first :=
      ⟨rfl, by simp, List.pairwise_singleton _ _, rfl, hends⟩
    obtain ⟨ends', runs, hfind, hentries, hordered, hends'⟩ :=
      @findRuns_spec _ _ _ key before hbefore _ rest.length _ _ _ _ _ hfound (Nat.add_comm _ _)
    have hfew := length_le_flatten fun run hrun => (hordered run hrun).2
    rw [← hentries] at hfew
    obtain ⟨sorted, other, hmerge, hsorted⟩ := @mergeAll_spec _ _ _ key before hbefore
      (first :: rest).length runs ends' _ spare (Nat.le_succ_of_le hfew) hentries
      (fun run hrun => (hordered run hrun).1) hends' hspare
    refine ⟨sorted, other, ?_, hsorted⟩
    rw [List.length_cons, show (0 : ℕ) = ([] : List (List α)).length from rfl, hfind,
      Option.bind_some]
    exact hmerge

end Runs

/-! ### The order of labels -/

/-- A label as the numbers of its bytes: lists are in byte order, a shorter one first on a common
prefix. -/
def numbers (label : List UInt8) : List ℕ := label.map UInt8.toNat

/-- A label's first bytes as digits, the missing ones 0. -/
def headOf : ℕ → List UInt8 → ℕ
  | 0, _ => 0
  | _ + 1, [] => 0
  | n + 1, byte :: label => byte.toNat * 256 ^ n + headOf n label

lemma headOf_lt (n : ℕ) (label : List UInt8) : headOf n label < 256 ^ n := by
  induction n generalizing label with
  | zero => simp [headOf]
  | succ n ih =>
    cases label with
    | nil => exact Nat.pow_pos (by decide)
    | cons byte label =>
      have hbyte : byte.toNat + 1 ≤ 256 := byte.toNat_lt
      have hmul := Nat.mul_le_mul_right (256 ^ n) hbyte
      have hrest := ih label
      rw [Nat.add_mul, Nat.one_mul] at hmul
      rw [headOf, Nat.pow_succ']
      omega

lemma foldl_head {k : ℕ} (n : ℕ) (label : List UInt8) (head : ℕ) (hroom : k + n ≤ 8)
    (hhead : head < 256 ^ k) :
    (label.take n).foldl (fun head byte => (head <<< 8 ||| byte.toNat) % 2 ^ 64) head *
        256 ^ (n - min label.length n) =
      head * 256 ^ n + headOf n label := by
  induction n generalizing label head k with
  | zero => simp [headOf]
  | succ n ih =>
    cases label with
    | nil => simp [headOf]
    | cons byte label =>
      have hbyte : byte.toNat < 2 ^ 8 := byte.toNat_lt
      have hstep : head <<< 8 ||| byte.toNat = head * 256 + byte.toNat := by
        rw [← Nat.shiftLeft_add_eq_or_of_lt hbyte, Nat.shiftLeft_eq]
      have hlt : head * 256 + byte.toNat < 256 ^ (k + 1) := by
        have hmul := Nat.mul_le_mul_right 256 hhead
        rw [Nat.pow_succ]
        omega
      have hword : (256 : ℕ) ^ (k + 1) ≤ 2 ^ 64 := by
        calc (256 : ℕ) ^ (k + 1) ≤ 256 ^ 8 := Nat.pow_le_pow_right (by decide) (by omega)
          _ = 2 ^ 64 := by norm_num
      have hrest := @ih (k + 1) label (head * 256 + byte.toNat) (by omega) hlt
      rw [List.take_succ_cons, List.foldl_cons, hstep, Nat.mod_eq_of_lt (by omega),
        List.length_cons, Nat.add_min_add_right, Nat.add_sub_add_right, hrest, headOf]
      ring

lemma keyHead_eq (label : List UInt8) : keyHead label = headOf 8 label := by
  have hfold := @foldl_head 0 8 label 0 (by decide) (by decide)
  have hmin : (if label.length < 8 then label.length else 8) = min label.length 8 := by
    split <;> omega
  have htake : label.take (min label.length 8) = label.take 8 := by
    rw [Nat.min_comm, ← List.take_take, List.take_length]
  rw [Nat.zero_mul, Nat.zero_add] at hfold
  rw [keyHead]
  rw [hmin, htake]
  split
  next hbytes =>
    have hlt := headOf_lt 8 label
    rw [Nat.shiftLeft_eq, Nat.pow_mul, show (2 : ℕ) ^ 8 = 256 from rfl, hfold,
      Nat.mod_eq_of_lt (hlt.trans_le (by norm_num))]
  next hbytes =>
    have hnil : label = [] := by
      rw [← List.length_eq_zero_iff]
      omega
    rw [hnil]
    rfl

lemma lt_of_headOf_lt {n : ℕ} {a b : List UInt8} (h : headOf n a < headOf n b) :
    numbers a < numbers b := by
  induction n generalizing a b with
  | zero => exact absurd h (lt_irrefl _)
  | succ n ih =>
    cases b with
    | nil => exact absurd h (Nat.not_lt_zero _)
    | cons y b =>
      cases a with
      | nil => exact List.nil_lt_cons _ _
      | cons x a =>
        rw [headOf, headOf] at h
        rw [numbers, List.map_cons, numbers, List.map_cons, List.cons_lt_cons_iff]
        have hb := headOf_lt n b
        rcases Nat.lt_trichotomy x.toNat y.toNat with hlt | heq | hgt
        · exact Or.inl hlt
        · rw [heq] at h
          exact Or.inr ⟨heq, ih (Nat.lt_of_add_lt_add_left h)⟩
        · have hmul := Nat.mul_le_mul_right (256 ^ n) hgt
          rw [Nat.succ_mul] at hmul
          omega

lemma headOf_eq {n : ℕ} {a b : List UInt8} (h : headOf n a = headOf n b) :
    (a.length ≤ n ∨ b.length ≤ n → (numbers a < numbers b ↔ a.length < b.length)) ∧
      (n < a.length → n < b.length →
        (numbers a < numbers b ↔ numbers (a.drop n) < numbers (b.drop n))) := by
  induction n generalizing a b with
  | zero =>
    refine ⟨?_, fun _ _ => Iff.rfl⟩
    intro hzero
    cases a with
    | nil =>
      cases b with
      | nil => simp [numbers]
      | cons y b => simp [numbers]
    | cons x a =>
      cases b with
      | nil => simp [numbers]
      | cons y b => simp at hzero
  | succ n ih =>
    cases a with
    | nil =>
      cases b with
      | nil => simp [numbers]
      | cons y b => simp [numbers]
    | cons x a =>
      cases b with
      | nil => simp [numbers]
      | cons y b =>
        rw [headOf, headOf] at h
        have ha := headOf_lt n a
        have hb := headOf_lt n b
        have hxy : x.toNat = y.toNat := by
          rcases Nat.lt_trichotomy x.toNat y.toNat with hlt | heq | hgt
          · have hmul := Nat.mul_le_mul_right (256 ^ n) hlt
            rw [Nat.succ_mul] at hmul
            omega
          · exact heq
          · have hmul := Nat.mul_le_mul_right (256 ^ n) hgt
            rw [Nat.succ_mul] at hmul
            omega
        rw [hxy] at h
        obtain ⟨hshort, hlong⟩ := ih (Nat.add_left_cancel h)
        have hcons : numbers (x :: a) < numbers (y :: b) ↔ numbers a < numbers b := by
          rw [numbers, List.map_cons, numbers, List.map_cons, List.cons_lt_cons_iff, hxy]
          simp [numbers]
        simp only [List.length_cons, List.drop_succ_cons]
        rw [hcons]
        refine ⟨fun hle => ?_, fun h₁ h₂ => hlong (by omega) (by omega)⟩
        rw [hshort (by omega)]
        omega

lemma memcmp_take (a b : List UInt8) {n : ℕ} (h : min a.length b.length ≤ n) :
    memcmp (a.take n) (b.take n) = memcmp a b := by
  induction a generalizing b n with
  | nil => cases b <;> cases n <;> rfl
  | cons x a ih =>
    cases b with
    | nil => cases n <;> rfl
    | cons y b =>
      cases n with
      | zero => simp at h
      | succ n =>
        rw [List.take_succ_cons, List.take_succ_cons, memcmp, memcmp, ih]
        simpa using h

lemma numbers_lt_iff (a b : List UInt8) :
    numbers a < numbers b ↔ memcmp a b < 0 ∨ memcmp a b = 0 ∧ a.length < b.length := by
  induction a generalizing b with
  | nil =>
    cases b with
    | nil => simp [numbers, memcmp]
    | cons y b => simp [numbers, memcmp]
  | cons x a ih =>
    cases b with
    | nil => simp [numbers, memcmp]
    | cons y b =>
      rw [numbers, List.map_cons, numbers, List.map_cons, List.cons_lt_cons_iff, memcmp]
      split
      next heq =>
        rw [heq, List.length_cons, List.length_cons, Nat.add_lt_add_iff_right]
        simpa [numbers] using ih b
      next hne =>
        have hne' : x.toNat ≠ y.toNat := fun heq => hne (UInt8.toNat_inj.mp heq)
        omega

lemma lengthOrder_neg_iff (a b : ℕ) : lengthOrder a b < 0 ↔ a < b := by
  rw [lengthOrder]
  split <;> split <;> omega

/-- Two labels whose heads are the same are in the order of their lengths or of the bytes past
the eighth. -/
lemma keyTieOrder_neg_iff {a b : List UInt8} (h : keyHead a = keyHead b) :
    keyTieOrder a b < 0 ↔ numbers a < numbers b := by
  rw [keyHead_eq, keyHead_eq] at h
  obtain ⟨hshort, hlong⟩ := headOf_eq h
  rw [keyTieOrder]
  split
  next hle => rw [hshort hle, lengthOrder_neg_iff]
  next hgt =>
    have hcommon : (if a.length < b.length then a.length else b.length) - 8 =
        min (a.drop 8).length (b.drop 8).length := by
      rw [List.length_drop, List.length_drop]
      split <;> omega
    have hlengths : (a.drop 8).length < (b.drop 8).length ↔ a.length < b.length := by
      rw [List.length_drop, List.length_drop]
      omega
    dsimp only
    rw [hlong (by omega) (by omega), numbers_lt_iff, hcommon, memcmp_take _ _ le_rfl, hlengths]
    split
    next hne => exact ⟨Or.inl, fun hor => hor.resolve_right fun hand => hne hand.1⟩
    next heq =>
      rw [lengthOrder_neg_iff]
      omega

lemma memcmp_self (a : List UInt8) : memcmp a a = 0 := by
  induction a with
  | nil => rfl
  | cons x a ih => rw [memcmp, if_pos rfl, ih]

lemma eq_of_memcmp {a b : List UInt8} (hlength : a.length = b.length) (h : memcmp a b = 0) :
    a = b := by
  induction a generalizing b with
  | nil => exact (List.length_eq_zero_iff.mp hlength.symm).symm
  | cons x a ih =>
    cases b with
    | nil => simp at hlength
    | cons y b =>
      rw [memcmp] at h
      split at h
      next heq => rw [heq, ih (Nat.succ.inj hlength) h]
      next hne =>
        have hne' : x.toNat ≠ y.toNat := fun heq => hne (UInt8.toNat_inj.mp heq)
        omega

lemma lengthOrder_zero_iff (a b : ℕ) : lengthOrder a b = 0 ↔ a = b := by
  rw [lengthOrder]
  split <;> split <;> omega

lemma numbers_injective : Function.Injective numbers :=
  List.map_injective_iff.mpr fun _ _ h => UInt8.toNat_inj.mp h

/-- Two labels whose heads are the same are one when neither is before the other. -/
lemma keyTieOrder_zero_iff {a b : List UInt8} (h : keyHead a = keyHead b) :
    keyTieOrder a b = 0 ↔ a = b := by
  constructor
  · intro hzero
    have hhead := h
    rw [keyHead_eq, keyHead_eq] at hhead
    rw [keyTieOrder] at hzero
    split at hzero
    next hle =>
      rw [lengthOrder_zero_iff] at hzero
      have hab := (headOf_eq hhead).1 hle
      have hba := (headOf_eq hhead.symm).1 hle.symm
      rcases lt_trichotomy (numbers a) (numbers b) with hlt | heq | hgt
      · have hless := hab.mp hlt
        omega
      · exact numbers_injective heq
      · have hless := hba.mp hgt
        omega
    next hgt =>
      have hcommon : (if a.length < b.length then a.length else b.length) - 8 =
          min (a.drop 8).length (b.drop 8).length := by
        rw [List.length_drop, List.length_drop]
        split <;> omega
      dsimp only at hzero
      rw [hcommon, memcmp_take _ _ le_rfl] at hzero
      split at hzero
      next hne => exact absurd hzero hne
      next heq =>
        rw [lengthOrder_zero_iff] at hzero
        have hdrop : a.drop 8 = b.drop 8 := by
          refine eq_of_memcmp ?_ (not_not.mp heq)
          rw [List.length_drop, List.length_drop, hzero]
        have hlong := (headOf_eq hhead).2 (by omega) (by omega)
        have hlong' := (headOf_eq hhead.symm).2 (by omega) (by omega)
        rw [hdrop] at hlong hlong'
        rcases lt_trichotomy (numbers a) (numbers b) with hlt | heq | hgt
        · exact absurd (hlong.mp hlt) (lt_irrefl _)
        · exact numbers_injective heq
        · exact absurd (hlong'.mp hgt) (lt_irrefl _)
  · rintro rfl
    rw [keyTieOrder]
    split
    · exact (lengthOrder_zero_iff _ _).mpr rfl
    · dsimp only
      rw [memcmp_self, if_neg (by simp), lengthOrder_zero_iff]

/-- The order of two entries is that of their labels. -/
lemma labelBefore_eq {V : Type*} (a b : LabelEntry V) :
    labelBefore a b = decide (numbers a.key < numbers b.key) := by
  rw [labelBefore, Bool.eq_iff_iff, decide_eq_true_eq]
  rw [a.head_eq, b.head_eq]
  split
  next hne =>
    rw [decide_eq_true_eq]
    constructor
    · intro hlt
      rw [keyHead_eq, keyHead_eq] at hlt
      exact lt_of_headOf_lt hlt
    · intro hlt
      rcases Nat.lt_or_gt_of_ne hne with hless | hmore
      · exact hless
      · rw [keyHead_eq, keyHead_eq] at hmore
        exact absurd (lt_of_headOf_lt hmore) (not_lt.mpr hlt.le)
  next heq =>
    rw [decide_eq_true_eq]
    exact keyTieOrder_neg_iff (not_not.mp heq)

end MarkdownCore.Order
