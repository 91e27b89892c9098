import MarkdownCore.Source.ContentMapRun

/-!
# Lines that hold NUL

A line is read with each NUL as the three bytes of U+FFFD. Each byte of the line as it is read
stands for one of the source, which a search over the NULs' offsets finds, and the marks of any
slice of the line place its bytes there.
-/

namespace MarkdownCore.Source

/-- `markdown_core_normalized_line`: a line as it is read, and where in the source its NULs are. -/
structure NormalizedLine where
  bytes : List UInt8
  nuls : List ℕ
deriving DecidableEq

/-- The loop of `S_normalize_input_line`, from `at'` of the source. -/
def normalizeFrom : List UInt8 → ℕ → NormalizedLine → NormalizedLine
  | [], _, view => view
  | byte :: line, at', view =>
    if byte ≠ 0 then normalizeFrom line (at' + 1) { view with bytes := view.bytes ++ [byte] }
    else normalizeFrom line (at' + 1)
      { bytes := view.bytes ++ [0xef, 0xbf, 0xbd], nuls := view.nuls ++ [at'] }

/-- `S_normalize_input_line`, of the line that starts at `start` of the source. -/
def normalizeInputLine (line : List UInt8) (start : ℕ) : NormalizedLine :=
  let view := normalizeFrom line start ⟨[], []⟩
  { view with bytes := view.bytes ++ [0x0a, 0] }

/-- The flag of `S_denormalized_offset`: whether the byte is one of a replacement character. -/
def denormalizedNul (start : ℕ) (nuls : List ℕ) (index : ℕ) : Bool :=
  let lo := Bisect.bisect (fun k => nulIndex start nuls k ≤ index) nuls.length 0 nuls.length
  0 < lo ∧ index < nulIndex start nuls (lo - 1) + 3

/-- `S_append_nul_line_marks`: the runs of `length` bytes from `first` of the line, which is input
line `number`, at `offset` of the text. A line without NUL is one run. -/
def appendNulLineMarks (start : ℕ) (nuls : List ℕ) (map : ContentMap)
    (number first length offset : ℕ) : ContentMap :=
  if nuls = [] then map.appendMark ⟨offset, number, start + first, 1, 1⟩
  else
    let k := Bisect.bisect (fun k => nulIndex start nuls k + 3 ≤ first) nuls.length 0 nuls.length
    InputLine.nulMarks start nuls number first (first + length) offset length first k map

/-! ### The line as it is read -/

/-- What a byte of the source is read as. -/
def readAs (byte : UInt8) : List UInt8 := if byte = 0 then [0xef, 0xbf, 0xbd] else [byte]

/-- The source byte that each byte of the line as it is read stands for, and whether it is a NUL. -/
def origins : List UInt8 → ℕ → List (ℕ × Bool)
  | [], _ => []
  | byte :: line, at' => (readAs byte).map (fun _ => (at', byte == 0)) ++ origins line (at' + 1)

/-- Where the NULs of a line are. -/
def nulsOf : List UInt8 → ℕ → List ℕ
  | [], _ => []
  | byte :: line, at' => if byte = 0 then at' :: nulsOf line (at' + 1) else nulsOf line (at' + 1)

variable {line : List UInt8} {start at' : ℕ}

lemma normalizeFrom_eq (line : List UInt8) (at' : ℕ) (view : NormalizedLine) :
    normalizeFrom line at' view =
      ⟨view.bytes ++ line.flatMap readAs, view.nuls ++ nulsOf line at'⟩ := by
  induction line generalizing at' view with
  | nil => simp [normalizeFrom, nulsOf]
  | cons byte line ih =>
    by_cases hbyte : byte = 0
    · simp [normalizeFrom, nulsOf, readAs, hbyte, ih]
    · simp [normalizeFrom, nulsOf, readAs, hbyte, ih]

lemma normalizeInputLine_eq (line : List UInt8) (start : ℕ) :
    normalizeInputLine line start =
      ⟨line.flatMap readAs ++ [0x0a, 0], nulsOf line start⟩ := by
  simp [normalizeInputLine, normalizeFrom_eq]

lemma length_origins (line : List UInt8) (at' : ℕ) :
    (origins line at').length = (line.flatMap readAs).length := by
  induction line generalizing at' with
  | nil => rfl
  | cons byte line ih => simp [origins, ih]

lemma le_nulsOf {nul : ℕ} (h : nul ∈ nulsOf line at') : at' ≤ nul := by
  induction line generalizing at' with
  | nil => simp [nulsOf] at h
  | cons byte line ih =>
    rw [nulsOf] at h
    split at h
    next =>
      rcases List.mem_cons.mp h with rfl | h
      · exact le_refl _
      · exact le_trans (Nat.le_succ at') (ih h)
    next => exact le_trans (Nat.le_succ at') (ih h)

lemma nulsOf_increasing (line : List UInt8) (at' : ℕ) : (nulsOf line at').Pairwise (· < ·) := by
  induction line generalizing at' with
  | nil => exact List.Pairwise.nil
  | cons byte line ih =>
    rw [nulsOf]
    split
    next => exact List.pairwise_cons.mpr ⟨fun nul h => le_nulsOf h, ih (at' + 1)⟩
    next => exact ih (at' + 1)

/-- A NUL is two bytes further on than it would be without the one before it. -/
lemma nulIndex_cons {nuls : List ℕ} (hin : ∀ nul ∈ nuls, at' + 1 ≤ nul) {k : ℕ}
    (hk : k < nuls.length) :
    nulIndex at' (at' :: nuls) (k + 1) = nulIndex (at' + 1) nuls k + 3 := by
  have hle := hin _ (List.getElem_mem hk)
  simp only [nulIndex, List.getD_cons_succ, List.getD_eq_getElem _ _ hk]
  omega

/-- It is one byte further on from a start one before. -/
lemma nulIndex_succ {nuls : List ℕ} (hin : ∀ nul ∈ nuls, at' + 1 ≤ nul) {k : ℕ}
    (hk : k < nuls.length) : nulIndex at' nuls k = nulIndex (at' + 1) nuls k + 1 := by
  have hle := hin _ (List.getElem_mem hk)
  simp only [nulIndex, List.getD_eq_getElem _ _ hk]
  omega

/-- A byte of the line as it is read lies past `k` replacement characters, and is one of the next
or comes before it. -/
structure Lies (start : ℕ) (nuls : List ℕ) (index source : ℕ) (nul : Bool) (k : ℕ) : Prop where
  le : k ≤ nuls.length
  before : ∀ j < k, nulIndex start nuls j + 3 ≤ index
  inside : nul = true → k < nuls.length ∧ nuls.getD k 0 = source ∧
    nulIndex start nuls k ≤ index ∧ index < nulIndex start nuls k + 3
  outside : nul = false → (k < nuls.length → index < nulIndex start nuls k) ∧
    source + 2 * k = start + index

lemma Lies.cons_nul {nuls : List ℕ} (hin : ∀ nul ∈ nuls, at' + 1 ≤ nul) {index source k : ℕ}
    {nul : Bool} (h : Lies (at' + 1) nuls index source nul k) :
    Lies at' (at' :: nuls) (index + 3) source nul (k + 1) := by
  refine ⟨Nat.succ_le_succ h.le, ?_, ?_, ?_⟩
  · intro j hj
    cases j with
    | zero => simp [nulIndex]
    | succ j =>
      have hj := Nat.lt_of_succ_lt_succ hj
      rw [nulIndex_cons hin (lt_of_lt_of_le hj h.le)]
      exact Nat.add_le_add_right (h.before j hj) 3
  · intro hnul
    obtain ⟨hk, hsource, hle, hlt⟩ := h.inside hnul
    rw [nulIndex_cons hin hk]
    exact ⟨Nat.succ_lt_succ hk, hsource, Nat.add_le_add_right hle 3, by omega⟩
  · intro hnul
    obtain ⟨hfrom, hsource⟩ := h.outside hnul
    refine ⟨fun hk => ?_, by omega⟩
    have hk := Nat.lt_of_succ_lt_succ hk
    rw [nulIndex_cons hin hk]
    exact Nat.add_lt_add_right (hfrom hk) 3

lemma Lies.succ {nuls : List ℕ} (hin : ∀ nul ∈ nuls, at' + 1 ≤ nul) {index source k : ℕ}
    {nul : Bool} (h : Lies (at' + 1) nuls index source nul k) :
    Lies at' nuls (index + 1) source nul k := by
  refine ⟨h.le, ?_, ?_, ?_⟩
  · intro j hj
    rw [nulIndex_succ hin (lt_of_lt_of_le hj h.le)]
    have := h.before j hj
    omega
  · intro hnul
    obtain ⟨hk, hsource, hle, hlt⟩ := h.inside hnul
    rw [nulIndex_succ hin hk]
    exact ⟨hk, hsource, Nat.succ_le_succ hle, by omega⟩
  · intro hnul
    obtain ⟨hfrom, hsource⟩ := h.outside hnul
    refine ⟨fun hk => ?_, by omega⟩
    rw [nulIndex_succ hin hk]
    exact Nat.succ_lt_succ (hfrom hk)

lemma exists_lies {index source : ℕ} {nul : Bool}
    (h : (origins line at')[index]? = some (source, nul)) :
    ∃ k, Lies at' (nulsOf line at') index source nul k := by
  induction line generalizing at' index with
  | nil => simp [origins] at h
  | cons byte line ih =>
    have hin : ∀ nul ∈ nulsOf line (at' + 1), at' + 1 ≤ nul := fun nul hnul => le_nulsOf hnul
    rw [origins] at h
    by_cases hbyte : byte = 0
    · rw [nulsOf, if_pos hbyte]
      by_cases hindex : index < 3
      · -- a byte of the replacement character
        rw [List.getElem?_append_left (by simp [readAs, hbyte, hindex])] at h
        simp [readAs, hbyte] at h
        refine ⟨0, Nat.zero_le _, by simp, fun hnul => ?_, fun hnul => ?_⟩
        · have hsource : at' = source := by
            match index, hindex with
            | 0, _ | 1, _ | 2, _ => simp_all
          exact ⟨Nat.succ_pos _, hsource, by simp [nulIndex], by simp [nulIndex, hindex]⟩
        · match index, hindex with
          | 0, _ | 1, _ | 2, _ => simp_all
      · rw [List.getElem?_append_right (by simpa [readAs, hbyte] using hindex)] at h
        simp only [readAs, hbyte, if_true, List.length_map, List.length_cons, List.length_nil] at h
        obtain ⟨k, hk⟩ := ih h
        have hlies := hk.cons_nul hin
        rw [show index - 3 + 3 = index by omega] at hlies
        exact ⟨k + 1, hlies⟩
    · rw [nulsOf, if_neg hbyte]
      cases index with
      | zero =>
        simp [readAs, hbyte] at h
        obtain ⟨rfl, rfl⟩ := h
        refine ⟨0, Nat.zero_le _, by simp, fun hnul => ?_, fun _ => ⟨fun hlt => ?_, rfl⟩⟩
        · exact absurd (eq_of_beq hnul) hbyte
        have hpos := nulIndex_succ hin hlt
        exact hpos ▸ Nat.succ_pos _
      | succ index =>
        simp [readAs, hbyte] at h
        obtain ⟨k, hk⟩ := ih h
        exact ⟨k, hk.succ hin⟩

/-- The search finds what each byte stands for. -/
lemma denormalized_eq {index source : ℕ} {nul : Bool}
    (h : (origins line start)[index]? = some (source, nul)) :
    denormalizedOffset start (nulsOf line start) index = source ∧
      denormalizedNul start (nulsOf line start) index = nul := by
  have hinc := nulsOf_increasing line start
  have hin : ∀ nul ∈ nulsOf line start, start ≤ nul := fun nul hnul => le_nulsOf hnul
  obtain ⟨k, hk⟩ := exists_lies h
  cases nul with
  | true =>
    obtain ⟨hlt, hsource, hle, hlt'⟩ := hk.inside rfl
    rw [denormalizedOffset_inside hinc hin hlt hle hlt', hsource, denormalizedNul,
      bisect_inside hinc hin hlt hle hlt']
    exact ⟨rfl, decide_eq_true ⟨k.succ_pos, hlt'⟩⟩
  | false =>
    obtain ⟨hfrom, hsource⟩ := hk.outside rfl
    rw [denormalizedOffset_outside hinc hin hk.le hk.before hfrom, denormalizedNul,
      bisect_outside hinc hin hk.le hk.before hfrom]
    refine ⟨by omega, decide_eq_false ?_⟩
    rintro ⟨hpos, hlt⟩
    exact absurd (hk.before (k - 1) (by omega)) (Nat.not_le.mpr hlt)

/-! ### The marks of a slice -/

variable {marks : List Mark} {mark : Mark} {nuls : List ℕ} {origin : ℕ}
/-- The marks of a slice place each byte of it where the search does. -/
lemma appendNulLineMarks_place {nuls : List ℕ} (hinc : nuls.Pairwise (· < ·))
    (hin : ∀ nul ∈ nuls, start ≤ nul) {map : ContentMap} {offset : ℕ}
    (hmarks : Increasing map.marks) (hle : ∀ m ∈ map.marks, m.offset ≤ offset + map.origin)
    (number first : ℕ) {length x : ℕ} (hx : x < length) (stop : Bool) :
    ((appendNulLineMarks start nuls map number first length offset).contentPlace (offset + x)
      stop).map Prod.snd =
      some (denormalizedOffset start nuls (first + x) + if stop then 1 else 0) := by
  obtain ⟨marks, origin⟩ := map
  obtain ⟨kept, past, heq, hbefore, -, hkept⟩ :=
    @exists_kept marks origin (offset + origin) hmarks hle
  have hincreasing : Increasing kept :=
    hmarks.sublist (heq.symm ▸ List.sublist_append_left kept past)
  have hpos : 0 < length := Nat.zero_lt_of_lt hx
  -- what the marks appended to those that are kept place
  have hplaces : ∀ run : List Mark, Run run (offset + origin) (offset + origin + length)
      (fun x => denormalizedOffset start nuls (first + (x - (offset + origin))))
      (fun x => denormalizedOffset start nuls (first + (x - (offset + origin))) + 1) →
      ((⟨kept ++ run, origin⟩ : ContentMap).contentPlace (offset + x) stop).map Prod.snd =
        some (denormalizedOffset start nuls (first + x) + if stop then 1 else 0) := by
    intro run hrun
    obtain ⟨i, mark, hcovers, hfirst, hlast⟩ :=
      hrun.placed (offset + x + origin) (by omega) (by omega)
    have hall : Increasing (kept ++ run) := by
      refine List.pairwise_append.mpr ⟨hincreasing, hrun.increasing, fun a ha b hb => ?_⟩
      exact lt_of_lt_of_le (hbefore a ha) (hrun.within b hb).1
    have hoffset : offset + x + origin - (offset + origin) = x := by omega
    rw [Covers.contentPlace hall (Covers.append_right hcovers)]
    rw [hoffset] at hfirst hlast
    cases stop with
    | false => simp [hfirst]
    | true => simp [hlast]
  rw [appendNulLineMarks]
  split
  next hnil =>
    subst hnil
    rw [hkept _ rfl, appendMark_eq hbefore]
    apply hplaces
    refine (@Run.single (Mark.mk (offset + origin) number (start + first) 1 1) (offset + origin)
      (offset + origin + length) rfl (by omega)).congr fun x hx hx' => ?_
    rw [denormalizedOffset_outside hinc hin (Nat.le_refl 0) (by simp) (by simp)]
    simp only [Mark.place, if_true, Bool.false_eq_true, if_false]
    omega
  next =>
    have hfalls : ∀ i j, i ≤ j → j < nuls.length →
        nulIndex start nuls i + 3 ≤ nulIndex start nuls j + 3 := fun i j hij hj =>
      Nat.add_le_add_right (nulIndex_mono hinc hin i j hij hj) 3
    obtain ⟨hturn, hbefore', hfrom⟩ := @bisect_le_spec _ nuls.length first _ hfalls rfl
    generalize Bisect.bisect (fun k => decide (nulIndex start nuls k + 3 ≤ first)) nuls.length 0
      nuls.length = k at hturn hbefore' hfrom ⊢
    -- the first turn pushes a mark where the slice begins
    have hsame : InputLine.nulMarks start nuls number first (first + length) offset length first k
        ⟨marks, origin⟩ = InputLine.nulMarks start nuls number first (first + length) offset length
        first k ⟨kept, origin⟩ := by
      obtain ⟨fuel, rfl⟩ := Nat.exists_eq_succ_of_ne_zero (Nat.ne_of_gt hpos)
      rw [InputLine.nulMarks, InputLine.nulMarks]
      split
      next =>
        dsimp only
        rw [hkept]
        rw [Nat.add_sub_cancel]
      next hlt => exact absurd (Nat.lt_add_of_pos_right hpos) hlt
    obtain ⟨run, hrun, hplaced⟩ := @nulMarks_run _ start k nuls hinc hin number first
      (first + length) offset origin length first (by omega) (le_refl _) (by omega) hturn
      (fun _ => hbefore') (fun _ => hfrom) hincreasing (by simpa using hbefore)
    rw [hsame, hrun]
    apply hplaces
    rw [show offset + origin + first - first = offset + origin by omega,
      show offset + origin + (first + length) - first = offset + origin + length by omega]
      at hplaced
    exact hplaced

/-- A line is read with each NUL as the three bytes of U+FFFD; the search gives for each byte as
read the source byte it stands for, the NUL for those of its replacement character; and the marks
of any slice of the line place each byte of it there, and its end one byte on. -/
theorem normalized_line_places (line : List UInt8) (start : ℕ) :
    (normalizeInputLine line start).bytes = line.flatMap readAs ++ [0x0a, 0] ∧
    (origins line start).length = (line.flatMap readAs).length ∧
    (∀ (index source : ℕ) (nul : Bool), (origins line start)[index]? = some (source, nul) →
      denormalizedOffset start (normalizeInputLine line start).nuls index = source ∧
      denormalizedNul start (normalizeInputLine line start).nuls index = nul) ∧
    ∀ (map : ContentMap) (number first length offset : ℕ), Increasing map.marks →
      (∀ m ∈ map.marks, m.offset ≤ offset + map.origin) →
      first + length ≤ (line.flatMap readAs).length → ∀ x < length, ∀ stop,
      ((appendNulLineMarks start (normalizeInputLine line start).nuls map number first length
        offset).contentPlace (offset + x) stop).map Prod.snd =
        some (denormalizedOffset start (normalizeInputLine line start).nuls (first + x) +
          if stop then 1 else 0) := by
  rw [normalizeInputLine_eq]
  refine ⟨rfl, length_origins line start, ?_, ?_⟩
  · intro index source nul h
    exact denormalized_eq h
  · intro map number first length offset hmarks hle _ x hx stop
    exact appendNulLineMarks_place (nulsOf_increasing line start) (fun nul h => le_nulsOf h)
      hmarks hle number first hx stop

theorem normalized_line_places_sample :
    (normalizeInputLine [0x61, 0, 0x62] 5).bytes =
      [0x61, 0xef, 0xbf, 0xbd, 0x62, 0x0a, 0] ∧
    ((appendNulLineMarks 5 [6] ⟨[], 0⟩ 1 2 3 0).contentPlace 1 true).map Prod.snd = some 7 := by
  have h := normalized_line_places [0x61, 0, 0x62] 5
  have hslice := h.2.2.2 ⟨[], 0⟩ 1 2 3 0 List.Pairwise.nil (by simp) (by decide) 1 (by decide) true
  refine ⟨h.1, hslice.trans ?_⟩
  decide

end MarkdownCore.Source
