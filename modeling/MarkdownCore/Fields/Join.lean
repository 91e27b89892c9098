import MarkdownCore.Fields.ViewRun

/-!
# The text of a view

The first pass of the joining finds where each run starts, and the second writes each run's bytes
there: the text is the image of the runs' bytes, one after the other, and each byte's image stands
where the view says it does.
-/

namespace MarkdownCore.Fields

/-- How many bytes of the text a run is. -/
def runWidth (source : List UInt8) (run : Place) : ℕ :=
  2 * (nulsIn source run).length + (run.stop - run.start)

/-- A run as the text reads it. -/
def runImage (source : List UInt8) (run : Place) : List UInt8 := run.bytes.flatMap (image source)

section
variable {source : List UInt8}

lemma length_image (s : ℕ) : (image source s).length = if source.getD s 0 = 0 then 3 else 1 := by
  rw [image]
  by_cases h : source.getD s 0 = 0
  · rw [if_neg (not_not.mpr h), if_pos h]
    rfl
  · rw [if_pos h, if_neg h]
    rfl

lemma length_flatMap_image (l : List ℕ) :
    (l.flatMap (image source)).length =
      2 * (l.filter fun s => source.getD s 0 = 0).length + l.length := by
  induction l with
  | nil => rfl
  | cons s l ih =>
    rw [List.flatMap_cons, List.length_append, ih, length_image]
    by_cases h : source.getD s 0 = 0
    · rw [if_pos h, List.filter_cons_of_pos (by simpa using h), List.length_cons, List.length_cons]
      omega
    · rw [if_neg h, List.filter_cons_of_neg (by simpa using h), List.length_cons]
      omega

lemma length_runImage (run : Place) : (runImage source run).length = runWidth source run := by
  rw [runImage, length_flatMap_image, runWidth, nulsIn, Place.bytes, List.length_range']

/-! ### The first pass -/

lemma measure_bases (runs : List Place) (size : ℕ) :
    (measure source runs size).1.length = runs.length ∧
      ∀ i < runs.length, (measure source runs size).1.getD i 0 =
        size + ((runs.take i).map (runWidth source)).sum := by
  induction runs generalizing size with
  | nil => simp [measure]
  | cons run rest ih =>
    obtain ⟨hlength, hbases⟩ := ih (size + 2 * (nulsIn source run).length + (run.stop - run.start))
    refine ⟨by simp [measure, hlength], fun i hi => ?_⟩
    cases i with
    | zero => simp [measure]
    | succ i =>
      rw [measure, List.getD_cons_succ, hbases i (Nat.lt_of_succ_lt_succ hi), List.take_succ_cons,
        List.map_cons, List.sum_cons, runWidth]
      omega

lemma measure_nuls (runs : List Place) (size : ℕ) :
    (measure source runs size).2.1 = runs.flatMap (nulsIn source) := by
  induction runs generalizing size with
  | nil => rfl
  | cons run rest ih =>
    rw [measure, List.flatMap_cons, ih]

lemma measure_size (runs : List Place) (size : ℕ) :
    (measure source runs size).2.2 = size + (runs.map (runWidth source)).sum := by
  induction runs generalizing size with
  | nil => rfl
  | cons run rest ih =>
    rw [measure, ih, List.map_cons, List.sum_cons, runWidth]
    omega

/-! ### The second pass -/

/-- Runs written where the first pass puts them stand one after the other. -/
lemma writeRuns_eq (runs : List Place) :
    ∀ (size : ℕ) (text : List UInt8), (measure source runs size).2.2 ≤ text.length →
      writeRuns source runs (measure source runs size).1 text =
        text.take size ++ runs.flatMap (runImage source) ++
          text.drop (measure source runs size).2.2 := by
  induction runs with
  | nil =>
    intro size text _
    simp [writeRuns, measure]
  | cons run rest ih =>
    intro size text hlength
    have hwidth := @length_runImage source run
    rw [measure_size, List.map_cons, List.sum_cons] at hlength
    have hnext : size + 2 * (nulsIn source run).length + (run.stop - run.start) =
        size + (runImage source run).length := by
      rw [hwidth, runWidth]
      omega
    rw [measure]
    dsimp only
    rw [hnext, writeRuns]
    change writeRuns source rest _ (writeAt text size (runImage source run)) = _
    have htake : (text.take size).length = size := by
      rw [List.length_take]
      omega
    have hwritten : (writeAt text size (runImage source run)).length = text.length := by
      rw [writeAt, List.length_append, List.length_append, htake, List.length_drop]
      omega
    have htotal := @measure_size source rest (size + (runImage source run).length)
    rw [ih _ _ (by rw [hwritten, htotal]; omega), writeAt]
    have hhead : (text.take size ++ runImage source run).length =
        size + (runImage source run).length := by
      rw [List.length_append, htake]
    rw [← hhead, List.take_left, hhead, htotal, List.flatMap_cons]
    have hdrop : (text.take size ++ runImage source run ++
        text.drop (size + (runImage source run).length)).drop
          (size + (runImage source run).length + (rest.map (runWidth source)).sum) =
        text.drop (size + (runImage source run).length + (rest.map (runWidth source)).sum) := by
      rw [← List.drop_drop, ← hhead, List.drop_left, hhead, List.drop_drop]
    rw [hdrop, List.append_assoc (text.take size)]

/-! ### The view -/

/-- What joining makes of runs: its parts, as the two passes leave them. -/
lemma join_eq {runs : List Place} {r : View} (h : join source runs = some r) :
    r.runs = runs ∧ r.bases = (measure source runs 0).1 ∧
      r.nuls = runs.flatMap (nulsIn source) ∧ r.size = (runs.map (runWidth source)).sum ∧
      r.text = runs.flatMap (runImage source) ++ [0x0a] := by
  rw [join] at h
  split at h
  next => cases h
  next =>
    obtain rfl := Option.some.inj h
    have hsize := @measure_size source runs 0
    rw [Nat.zero_add] at hsize
    have hlength : (runs.flatMap (runImage source)).length = (measure source runs 0).2.2 := by
      rw [hsize, List.length_flatMap]
      congr 1
      exact List.map_congr_left fun run _ => length_runImage run
    refine ⟨rfl, rfl, measure_nuls runs 0, hsize, ?_⟩
    dsimp only
    rw [writeRuns_eq runs 0 _ (by simp), List.take_zero, List.nil_append, List.drop_replicate,
      Nat.add_sub_cancel_left, ← hlength, List.set_append_right _ _ le_rfl, Nat.sub_self]
    rfl

variable {runs : List Place} {r : View}

lemma mem_nulsIn {run : Place} (hle : run.start ≤ run.stop) {s : ℕ} :
    s ∈ nulsIn source run ↔ run.start ≤ s ∧ s < run.stop ∧ source.getD s 0 = 0 := by
  rw [nulsIn, Place.bytes, List.mem_filter, List.mem_range'_1, Nat.add_sub_cancel' hle,
    decide_eq_true_eq, and_assoc]

lemma nuls_sorted (hordered : runs.Pairwise fun a b => a.stop ≤ b.start)
    (hle : ∀ run ∈ runs, run.start ≤ run.stop) :
    (runs.flatMap (nulsIn source)).Pairwise (· < ·) := by
  rw [List.pairwise_flatMap]
  refine ⟨fun run _ => List.Pairwise.filter _ List.pairwise_lt_range', ?_⟩
  refine hordered.imp_of_mem fun ha hb hab s hs t ht => ?_
  have hs' := (mem_nulsIn (hle _ ha)).mp hs
  have ht' := (mem_nulsIn (hle _ hb)).mp ht
  omega

/-- In a run, the NULs are counted as they are met. -/
lemma countP_run {nuls : List ℕ} (hsorted : nuls.Pairwise (· < ·)) {start : ℕ} :
    ∀ n, (∀ s, start ≤ s → s < start + n → (s ∈ nuls ↔ source.getD s 0 = 0)) →
      nuls.countP (· < start + n) = nuls.countP (· < start) +
        ((List.range' start n).filter fun s => source.getD s 0 = 0).length := by
  intro n
  induction n with
  | zero => simp
  | succ n ih =>
    intro h
    have hlast := h (start + n) (Nat.le_add_right _ _) (by omega)
    rw [← Nat.add_assoc, countP_succ hsorted, ih fun s hs hs' => h s hs (by omega),
      List.range'_concat, List.filter_append, List.length_append, Nat.one_mul]
    by_cases hnul : start + n ∈ nuls
    · have hzero := hlast.mp hnul
      have hone : ([start + n].filter fun s => source.getD s 0 = 0) = [start + n] :=
        List.filter_cons_of_pos (decide_eq_true hzero)
      rw [if_pos hnul, hone, List.length_singleton, Nat.add_assoc]
    · have hzero : ¬ source.getD (start + n) 0 = 0 := fun hz => hnul (hlast.mpr hz)
      have hnone : ([start + n].filter fun s => source.getD s 0 = 0) = [] :=
        List.filter_cons_of_neg (by rw [decide_eq_false hzero]; decide)
      rw [if_neg hnul, hnone, List.length_nil]
      rfl

/-- The runs' NULs are those of the source, run by run. -/
lemma mem_nuls_iff (hle : ∀ run ∈ runs, run.start ≤ run.stop) (s : ℕ) :
    s ∈ runs.flatMap (nulsIn source) ↔
      ∃ run ∈ runs, run.start ≤ s ∧ s < run.stop ∧ source.getD s 0 = 0 := by
  rw [List.mem_flatMap]
  constructor
  · rintro ⟨run, hrun, hs⟩
    exact ⟨run, hrun, (mem_nulsIn (hle run hrun)).mp hs⟩
  · rintro ⟨run, hrun, hs⟩
    exact ⟨run, hrun, (mem_nulsIn (hle run hrun)).mpr hs⟩

/-- Joining makes a view whose bases, tops and NULs are those of its text. -/
theorem join_joined (hordered : runs.Pairwise fun a b => a.stop ≤ b.start)
    (hle : ∀ run ∈ runs, run.start ≤ run.stop) (h : join source runs = some r) :
    r.Joined source := by
  obtain ⟨hruns, hbases, hnuls, hsize, -⟩ := join_eq h
  obtain ⟨-, hbase⟩ := @measure_bases source runs 0
  rw [← hbases] at hbase
  have hsorted := @nuls_sorted source runs hordered hle
  have hmem := @mem_nuls_iff source runs hle
  rw [← hnuls] at hsorted hmem
  rw [← hruns] at hordered hle hmem hbase
  rw [← hruns] at hsize
  refine ⟨hordered, hle, fun hnil => by rw [hsize, hnil]; rfl, ?_, ?_, hsorted, hmem⟩
  · intro hne
    rw [View.base, hbase 0 (List.length_pos_iff.mpr hne)]
    rfl
  · intro i hi
    have hrun := View.Joined.run_mem hi
    obtain ⟨n, hn⟩ := Nat.exists_eq_add_of_le (hle _ hrun)
    have hcount := @countP_run source r.nuls hsorted (r.run i).start n fun s hs hs' =>
      nul_of_mem hmem hrun hs (hn ▸ hs')
    have hwidth : runWidth source (r.run i) = 2 * (((List.range' (r.run i).start n).filter
        fun s => source.getD s 0 = 0).length) + n := by
      rw [runWidth, nulsIn, Place.bytes, hn, Nat.add_sub_cancel_left]
    have htake : ((r.runs.take (i + 1)).map (runWidth source)).sum =
        ((r.runs.take i).map (runWidth source)).sum + runWidth source (r.run i) := by
      rw [List.take_add_one, List.getElem?_eq_getElem hi, View.run, List.getD_eq_getElem _ _ hi,
        List.map_append, List.sum_append]
      rfl
    have htop : r.top i = ((r.runs.take (i + 1)).map (runWidth source)).sum := by
      rw [View.top]
      split
      next hlt =>
        rw [View.base, hbase (i + 1) hlt, Nat.zero_add]
      next hge =>
        rw [hsize, List.take_of_length_le (by omega)]
    rw [htop, htake, hwidth, View.base, hbase i hi, hn, hcount]
    omega

/-- The image of a run's byte stands in the text where the view says. -/
theorem text_getElem (hordered : runs.Pairwise fun a b => a.stop ≤ b.start)
    (hle : ∀ run ∈ runs, run.start ≤ run.stop) (h : join source runs = some r) {i s k : ℕ}
    (hi : i < runs.length) (hstart : (r.run i).start ≤ s) (hstop : s < (r.run i).stop)
    (hk : k < (image source s).length) :
    r.text[r.stands i s + k]? = (image source s)[k]? := by
  have hjoined := join_joined hordered hle h
  obtain ⟨hruns, hbases, -, -, htext⟩ := join_eq h
  obtain ⟨-, hbase⟩ := @measure_bases source runs 0
  rw [← hbases] at hbase
  have hrun : r.run i = runs[i] := by
    rw [View.run, hruns, List.getD_eq_getElem _ _ hi]
  have hmem : r.run i ∈ r.runs := View.Joined.run_mem (hruns ▸ hi)
  obtain ⟨n, rfl⟩ := Nat.exists_eq_add_of_le hstart
  have hcount := @countP_run source r.nuls hjoined.sorted (r.run i).start n fun t ht ht' =>
    nul_of_mem hjoined.mem_nuls hmem ht (ht'.trans hstop)
  -- the text, cut where the byte's image begins and ends
  have hbytes : runImage source (r.run i) =
      (List.range' (r.run i).start n).flatMap (image source) ++
      (image source ((r.run i).start + n) ++
        (List.range' ((r.run i).start + n + 1) ((r.run i).stop - (r.run i).start - n - 1)).flatMap
          (image source)) := by
    have hsplit : (r.run i).stop - (r.run i).start =
        n + ((r.run i).stop - (r.run i).start - n - 1 + 1) := by omega
    rw [runImage, Place.bytes, hsplit, ← List.range'_append_1, List.range'_succ,
      List.flatMap_append, List.flatMap_cons]
    have hrest : n + ((r.run i).stop - (r.run i).start - n - 1 + 1) - n - 1 =
        (r.run i).stop - (r.run i).start - n - 1 := by omega
    rw [hrest]
  have hconcat : runs.flatMap (runImage source) = (runs.take i).flatMap (runImage source) ++
      (runImage source (r.run i) ++ (runs.drop (i + 1)).flatMap (runImage source)) := by
    rw [hrun, ← List.flatMap_cons, List.getElem_cons_drop, ← List.flatMap_append,
      List.take_append_drop]
  have hfront : ((runs.take i).flatMap (runImage source)).length = r.base i := by
    rw [View.base, hbase i hi, Nat.zero_add, List.length_flatMap]
    congr 1
    exact List.map_congr_left fun run _ => length_runImage run
  have hwithin : ((List.range' (r.run i).start n).flatMap (image source)).length =
      r.stands i ((r.run i).start + n) - r.base i := by
    rw [length_flatMap_image, List.length_range', View.stands, hcount]
    omega
  have hge : r.base i ≤ r.stands i ((r.run i).start + n) := by
    rw [View.stands, Nat.add_assoc]
    exact Nat.le_add_right _ _
  rw [htext, hconcat, hbytes]
  simp only [List.append_assoc]
  rw [List.getElem?_append_right (by omega), List.getElem?_append_right (by omega), hfront, hwithin,
    List.getElem?_append_left (by omega)]
  congr 1
  omega

end

end MarkdownCore.Fields
