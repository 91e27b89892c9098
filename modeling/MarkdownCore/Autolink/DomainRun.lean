import MarkdownCore.Autolink.Domain

/-!
# The rejection kept over a run

Two scans that come to the same position go on alike. A candidate inside a domain that was rejected
comes to the positions of the scan that rejected it before the last underscore, so it finds the
underscore in its last two segments too.
-/

namespace MarkdownCore.Autolink

open Inline StateTransition

section

variable {classes : UnicodeClasses} {data : List UInt8} {pos : ℕ}

/-! ### Characters -/

lemma decode_width (h : pos < data.length) :
    0 < (decode data pos).1 ∧ (decode data pos).1 ≤ 4 ∧
      (byteAt data pos < 0xc0 → (decode data pos).1 = 1) := by
  have hlen : 0 < data.length - pos := Nat.sub_pos_of_lt h
  have hlead : byteAt data pos < 0xc0 ↔ (byteAt data pos).toNat < 0xc0 := Iff.rfl
  simp only [decode, hlead]
  split_ifs <;> simp <;> omega

lemma decode_ascii (h : byteAt data pos < 0x80) :
    decode data pos = (1, (byteAt data pos).toNat) := by
  have hlead : (byteAt data pos).toNat < 0x80 := h
  simp [decode, hlead]

lemma hostcharWidth_ascii (h : byteAt data pos < 0x80) :
    hostcharWidth classes data pos =
      if isWhitespace (byteAt data pos) || ispunct (byteAt data pos) then 0 else 1 := by
  rw [hostcharWidth, decode_ascii h, classes.ascii _ h]

lemma hostcharWidth_le (h : 0 < hostcharWidth classes data pos) :
    hostcharWidth classes data pos = (decode data pos).1 := by
  rw [hostcharWidth] at h ⊢
  split at h
  · exact absurd h (lt_irrefl _)
  · rw [if_neg (by assumption)]

/-! ### The positions of a scan -/

/-- Where a turn of the scan goes on. -/
def hop (classes : UnicodeClasses) (data : List UInt8) (pos : ℕ) : Option ℕ :=
  (turn classes data (pos, ⟨0, 0, 0, 0⟩)).map Prod.fst

/-- What a turn counts of the byte it reads. -/
def Segments.read (s : Segments) (c : UInt8) (i : ℕ) : Segments :=
  if c = 0x5f then { s with uscore2 := s.uscore2 + 1, lastUnderscore := i }
  else if c = 0x2e then { s with uscore1 := s.uscore2, uscore2 := 0, np := s.np + 1 }
  else s

/-- A turn is a hop, whatever has been counted, and counts the byte it reads. -/
lemma turn_eq (s : Segments) :
    turn classes data (pos, s) = (hop classes data pos).map fun next =>
      (next, s.read (byteAt data (reading data pos)) (reading data pos)) := by
  simp only [hop, turn, Segments.read]
  split_ifs <;> simp_all

lemma reading_cases (data : List UInt8) (pos : ℕ) :
    reading data pos = pos ∨ (byteAt data pos = 0x5c ∧ reading data pos = pos + 1) := by
  rw [reading]
  split
  case isTrue h => exact Or.inr ⟨h.1, rfl⟩
  case isFalse => exact Or.inl rfl

lemma reading_lt (h : pos + 1 < data.length) : reading data pos < data.length := by
  rw [reading]
  split <;> omega

/-- A hop goes behind the byte it reads, and behind more only of a character of several bytes. -/
lemma hop_some {next : ℕ} (h : hop classes data pos = some next) :
    pos + 1 < data.length ∧ reading data pos < next ∧
      (next = reading data pos + 1 ∨
        (next ≤ reading data pos + 4 ∧ ¬ byteAt data (reading data pos) < 0xc0)) := by
  have hlt : pos + 1 < data.length := by
    by_contra hle
    simp [hop, turn, Nat.not_lt.mp hle] at h
  refine ⟨hlt, ?_⟩
  have hin := reading_lt hlt
  simp only [hop, turn, Nat.not_le.mpr hlt, if_false] at h
  generalize reading data pos = i at h hin
  obtain ⟨hpos, hle, hone⟩ := decode_width hin
  split_ifs at h with h1 h2 h3 hzero
  · obtain rfl : i + 1 = next := by simpa using h
    exact ⟨Nat.lt_succ_self i, Or.inl rfl⟩
  · obtain rfl : i + 1 = next := by simpa using h
    exact ⟨Nat.lt_succ_self i, Or.inl rfl⟩
  · obtain rfl : i + 1 = next := by simpa using h
    exact ⟨Nat.lt_succ_self i, Or.inl rfl⟩
  · cases h
  · obtain rfl : i + hostcharWidth classes data i = next := by simpa using h
    have hwidth := hostcharWidth_le (Nat.pos_of_ne_zero hzero)
    rw [hwidth]
    refine ⟨Nat.lt_add_of_pos_right hpos, ?_⟩
    by_cases hlead : byteAt data i < 0xc0
    · rw [hone hlead]
      exact Or.inl rfl
    · exact Or.inr ⟨Nat.add_le_add_left hle i, hlead⟩

lemma hop_lt {next : ℕ} (h : hop classes data pos = some next) : pos < next := by
  have hread := (hop_some h).2.1
  rcases reading_cases data pos with heq | ⟨-, heq⟩
  · rwa [heq] at hread
  · rw [heq] at hread
    exact Nat.lt_of_succ_lt hread

/-- A scan that comes past a position hops over it. -/
lemma exists_hop {first last : ℕ} (h : Reaches (hop classes data) first last) {k : ℕ}
    (hle : first ≤ k) (hlt : k < last) :
    ∃ before after, hop classes data before = some after ∧ before ≤ k ∧ k < after ∧
      Reaches (hop classes data) after last := by
  induction h using Relation.ReflTransGen.head_induction_on with
  | refl => exact absurd hle (Nat.not_le.mpr hlt)
  | head hstep hrest ih =>
    rename_i first next
    rcases Nat.lt_or_ge k next with hin | hout
    · exact ⟨first, next, hstep, hle, hin, hrest⟩
    · exact ih hout

/-! ### What a scan counts -/

lemma turns_of_none {steps : ℕ} {s : Segments} (h : hop classes data pos = none) :
    turns classes data steps (pos, s) = (pos, s) ∨
      turns classes data steps (pos, s) = (reading data pos, s) := by
  cases steps with
  | zero => exact Or.inl rfl
  | succ steps =>
    right
    simp only [turns, turn_eq, h, Option.map_none]

lemma turns_of_some {steps next : ℕ} {s : Segments} (h : hop classes data pos = some next) :
    turns classes data (steps + 1) (pos, s) = turns classes data steps
      (next, s.read (byteAt data (reading data pos)) (reading data pos)) := by
  simp only [turns, turn_eq, h, Option.map_some]

/-- Two counts that reject alike from here on, whatever is read. -/
def Alike (s t : Segments) : Prop :=
  (0 < s.uscore2 ∧ 0 < t.uscore2) ∨
    ((0 < s.uscore1 ↔ 0 < t.uscore1) ∧ (0 < s.uscore2 ↔ 0 < t.uscore2))

lemma Alike.rejects {s t : Segments} (h : Alike s t) : s.Rejects ↔ t.Rejects := by
  rcases h with ⟨hs, ht⟩ | ⟨h1, h2⟩
  · exact ⟨fun _ => Or.inr ht, fun _ => Or.inr hs⟩
  · exact or_congr h1 h2

lemma Alike.read {s t : Segments} (h : Alike s t) (c : UInt8) (i : ℕ) :
    Alike (s.read c i) (t.read c i) := by
  by_cases hunder : c = 0x5f
  · left
    simp [Segments.read, hunder]
  · by_cases hdot : c = 0x2e
    · right
      rcases h with ⟨hs, ht⟩ | ⟨-, h2⟩
      · simp [Segments.read, hdot, hs, ht]
      · simp [Segments.read, hdot, h2]
    · simpa [Segments.read, hunder, hdot] using h

/-- Two scans at one position whose counts are alike reject alike. -/
lemma turns_alike {steps steps' : ℕ} {s t : Segments} (hsteps : data.length ≤ pos + steps)
    (hsteps' : data.length ≤ pos + steps') (h : Alike s t) :
    (turns classes data steps (pos, s)).2.Rejects ↔
      (turns classes data steps' (pos, t)).2.Rejects := by
  induction steps generalizing pos steps' s t with
  | zero =>
    have hnone : hop classes data pos = none := by
      cases hhop : hop classes data pos with
      | none => rfl
      | some next => exact absurd (hop_some hhop).1 (by omega)
    rcases @turns_of_none classes data pos steps' t hnone with heq | heq
    · rw [heq]
      exact h.rejects
    · rw [heq]
      exact h.rejects
  | succ steps ih =>
    cases hhop : hop classes data pos with
    | none =>
      have hs := @turns_of_none classes data pos (steps + 1) s hhop
      have ht := @turns_of_none classes data pos steps' t hhop
      rcases hs with hs | hs <;> rcases ht with ht | ht <;> rw [hs, ht] <;> exact h.rejects
    | some next =>
      have hlt := (hop_some hhop).1
      have hpass := hop_lt hhop
      obtain ⟨steps', rfl⟩ : ∃ n, steps' = n + 1 := ⟨steps' - 1, by omega⟩
      rw [turns_of_some hhop, turns_of_some hhop]
      exact ih (by omega) (by omega) (h.read _ _)

/-- A scan that comes to a position goes on there. -/
lemma turns_of_hops {steps last : ℕ} (hsteps : data.length ≤ pos + steps)
    (h : Reaches (hop classes data) pos last) (s : Segments) :
    ∃ steps' s', data.length ≤ last + steps' ∧
      turns classes data steps (pos, s) = turns classes data steps' (last, s') := by
  induction h using Relation.ReflTransGen.head_induction_on generalizing steps s with
  | refl => exact ⟨steps, s, hsteps, rfl⟩
  | head hstep hrest ih =>
    have hlt := (hop_some hstep).1
    have hpass := hop_lt hstep
    obtain ⟨steps, rfl⟩ : ∃ n, steps = n + 1 := ⟨steps - 1, by omega⟩
    rw [turns_of_some hstep]
    exact ih (by omega) _

/-- A scan that rejects has come to the underscore it last met, unless it began with one
counted. -/
lemma exists_underscore {steps : ℕ} {s : Segments}
    (h : (turns classes data steps (pos, s)).2.Rejects) :
    (∃ last next, Reaches (hop classes data) pos last ∧ hop classes data last = some next ∧
        byteAt data (reading data last) = 0x5f ∧
        reading data last = (turns classes data steps (pos, s)).2.lastUnderscore) ∨
      ((turns classes data steps (pos, s)).2.lastUnderscore = s.lastUnderscore ∧ s.Rejects) := by
  induction steps generalizing pos s with
  | zero => exact Or.inr ⟨rfl, h⟩
  | succ steps ih =>
    cases hhop : hop classes data pos with
    | none =>
      right
      rcases @turns_of_none classes data pos (steps + 1) s hhop with heq | heq
      · rw [heq] at h ⊢
        exact ⟨rfl, h⟩
      · rw [heq] at h ⊢
        exact ⟨rfl, h⟩
    | some next =>
      rw [turns_of_some hhop] at h ⊢
      rcases ih h with ⟨last, after, hreach, hlast, hunder, heq⟩ | ⟨heq, hrejects⟩
      · exact Or.inl ⟨last, after, .head hhop hreach, hlast, hunder, heq⟩
      · by_cases hunder : byteAt data (reading data pos) = 0x5f
        · left
          refine ⟨pos, next, .refl, hhop, hunder, ?_⟩
          rw [heq]
          simp [Segments.read, hunder]
        · right
          by_cases hdot : byteAt data (reading data pos) = 0x2e
          · rw [heq]
            simp only [Segments.read, hdot, Segments.Rejects] at hrejects ⊢
            refine ⟨by simp, Or.inr ?_⟩
            simpa using hrejects
          · rw [heq]
            simp only [Segments.read, hunder, hdot, if_false] at hrejects ⊢
            exact ⟨trivial, hrejects⟩

/-- Two scans that come to the last underscore of the first reject alike. -/
lemma rejects_of_hops {steps steps' pos' last next : ℕ} {s t : Segments}
    (hsteps : data.length ≤ pos + steps) (hsteps' : data.length ≤ pos' + steps')
    (hreach : Reaches (hop classes data) pos last) (hreach' : Reaches (hop classes data) pos' last)
    (hnext : hop classes data last = some next)
    (hunder : byteAt data (reading data last) = 0x5f)
    (h : (turns classes data steps (pos, s)).2.Rejects) :
    (turns classes data steps' (pos', t)).2.Rejects := by
  obtain ⟨m, s', hm, hs⟩ := turns_of_hops hsteps hreach s
  obtain ⟨n, t', hn, ht⟩ := turns_of_hops hsteps' hreach' t
  have hlt := (hop_some hnext).1
  have hpass := hop_lt hnext
  obtain ⟨m, rfl⟩ : ∃ k, m = k + 1 := ⟨m - 1, by omega⟩
  obtain ⟨n, rfl⟩ : ∃ k, n = k + 1 := ⟨n - 1, by omega⟩
  rw [hs, turns_of_some hnext] at h
  rw [ht, turns_of_some hnext]
  refine (turns_alike (by omega) (by omega) ?_).mp h
  left
  simp [Segments.read, hunder]

/-! ### The bytes of candidates -/

lemma hop_w (h : byteAt data pos = 0x77) (hlt : pos + 1 < data.length) :
    hop classes data pos = some (pos + 1) := by
  have hread : reading data pos = pos := by simp [reading, h]
  have hwidth : hostcharWidth classes data pos = 1 := by
    rw [hostcharWidth_ascii (by rw [h]; decide), h]
    rfl
  simp [hop, turn, Nat.not_le.mpr hlt, hread, h, hwidth]

lemma hop_colon (h : byteAt data (reading data pos) = 0x3a) : hop classes data pos = none := by
  have hwidth : hostcharWidth classes data (reading data pos) = 0 := by
    rw [hostcharWidth_ascii (by rw [h]; decide), h]
    rfl
  simp [hop, turn, h, hwidth]

lemma wwwStart_some {contextStart offset start : ℕ}
    (h : wwwStart data contextStart offset = some start) :
    byteAt data start = 0x77 ∧ byteAt data (start + 1) = 0x77 ∧ byteAt data (start + 2) = 0x77 ∧
      byteAt data (start + 3) = 0x2e := by
  rw [wwwStart] at h
  split_ifs at h with hbefore hwww
  · obtain rfl : offset = start := Option.some.inj h
    exact hwww

lemma rewindLetters_spec (data : List UInt8) {offset : ℕ} (hle : offset ≤ data.length) :
    rewindLetters data offset ≤ offset ∧
      ∀ i < rewindLetters data offset, isalpha (byteAt data (offset - 1 - i)) = true := by
  have hlength : (data.take offset).reverse.length = offset := by
    rw [List.length_reverse, List.length_take, Nat.min_eq_left hle]
  have hrewind : rewindLetters data offset ≤ offset := by
    have h := (List.takeWhile_sublist isalpha (l := (data.take offset).reverse)).length_le
    rwa [hlength] at h
  refine ⟨hrewind, ?_⟩
  intro i hi
  have hin : i < offset := hi.trans_le hrewind
  have hwidth : i < width isalpha (data.take offset).reverse 0 := hi
  obtain ⟨c, hc, halpha⟩ := width_holds _ _ _ i hwidth
  rw [Nat.zero_add, List.getElem?_reverse (by simpa using ⟨hin, hin.trans_le hle⟩),
    List.length_take, Nat.min_eq_left hle, List.getElem?_take_of_lt (by omega)] at hc
  rwa [byteAt_of_getElem? hc]

/-- A scheme is letters and `://`. -/
lemma validUris_spec {uri : List UInt8} (h : uri ∈ validUris) :
    ∃ letters, 3 ≤ letters ∧ uri.length = letters + 3 ∧ uri.getD letters 0 = 0x3a ∧
      ∀ i < letters, isalpha (uri.getD i 0) = true := by
  simp only [validUris, List.mem_cons, List.not_mem_nil, or_false] at h
  rcases h with rfl | rfl | rfl
  · exact ⟨4, by decide⟩
  · exact ⟨5, by decide⟩
  · exact ⟨3, by decide⟩

lemma isalpha_ascii {c : UInt8} (h : isalpha c = true) : c < 0x80 ∧ c ≠ 0x3a := by
  refine ⟨?_, fun hc => absurd h (by rw [hc]; decide)⟩
  simp only [isalpha, Bool.or_eq_true, Bool.and_eq_true, decide_eq_true_eq] at h
  rcases h with h | h <;> exact UInt8.lt_of_le_of_lt h.2 (by decide)

lemma tolower_colon {c : UInt8} : tolower c = 0x3a ↔ c = 0x3a := by
  rw [tolower]
  split
  · simp_all only [UInt8.le_iff_toNat_le, ← UInt8.toNat_inj, UInt8.toNat_add, UInt8.reduceToNat]
    omega
  · rfl

lemma urlStart_some {offset start : ℕ} (h : urlStart classes data offset = some start) :
    start = offset + 3 ∧ 3 ≤ offset ∧ byteAt data offset = 0x3a ∧
      byteAt data (offset + 1) = 0x2f ∧ byteAt data (offset + 2) = 0x2f ∧
      (∀ i, 1 ≤ i → i ≤ 3 → byteAt data (offset - i) < 0x80) ∧
      0 < hostcharWidth classes data start := by
  rw [urlStart] at h
  split at h
  case isFalse => cases h
  case isTrue hurl =>
    obtain rfl : offset + 3 = start := Option.some.inj h
    obtain ⟨hcolon, hroom, hslash, hslash', hsafe⟩ := hurl
    have hin : offset ≤ data.length := by omega
    obtain ⟨hrewind, halpha⟩ := rewindLetters_spec data hin
    generalize rewindLetters data offset = rewind at hsafe hrewind halpha
    obtain ⟨uri, huri, hmatch⟩ := List.any_eq_true.mp hsafe
    obtain ⟨letters, hthree, hlength, huricolon, huriletters⟩ := validUris_spec huri
    simp only [Bool.and_eq_true, decide_eq_true_eq, List.all_eq_true, List.mem_range] at hmatch
    obtain ⟨⟨-, hbytes⟩, hhost⟩ := hmatch
    -- the letters before the colon are those of the scheme
    have hsame : rewind = letters := by
      rcases Nat.lt_trichotomy rewind letters with hlt | heq | hgt
      · have hbyte := hbytes rewind (by omega)
        rw [Nat.sub_add_cancel hrewind, hcolon, tolower_colon.mpr rfl] at hbyte
        exact absurd hbyte.symm (isalpha_ascii (huriletters rewind hlt)).2
      · exact heq
      · have hbyte := hbytes letters (by omega)
        rw [huricolon, tolower_colon] at hbyte
        have hletter := halpha (rewind - 1 - letters) (by omega)
        have hat : offset - 1 - (rewind - 1 - letters) = offset - rewind + letters := by omega
        rw [hat] at hletter
        exact absurd hbyte (isalpha_ascii hletter).2
    subst hsame
    refine ⟨rfl, hthree.trans hrewind, hcolon, hslash, hslash', ?_, ?_⟩
    · intro i hone hle
      have hletter := halpha (i - 1) (by omega)
      rw [show offset - 1 - (i - 1) = offset - i by omega] at hletter
      exact (isalpha_ascii hletter).1
    · rw [hlength, show offset - rewind + (rewind + 3) = offset + 3 by omega] at hhost
      exact Nat.pos_of_ne_zero hhost

/-- A domain begins with a host character. -/
lemma start_host {candidate : Candidate} {start : ℕ}
    (h : candidate.start? classes data = some start) : 0 < hostcharWidth classes data start := by
  cases candidate with
  | www contextStart offset =>
    obtain ⟨hw, -⟩ := wwwStart_some h
    rw [hostcharWidth_ascii (by rw [hw]; decide), hw]
    decide
  | scheme offset => exact (urlStart_some h).2.2.2.2.2.2

/-! ### A candidate inside a rejected domain -/

/-- A scan that starts at a host character passes the letters of a `www.` at a position of the
second's. -/
lemma hops_meet {start first last : ℕ} (hstart : start < first) (hlt : first < last)
    (hlen : first + 3 < data.length)
    (hwww : byteAt data first = 0x77 ∧ byteAt data (first + 1) = 0x77 ∧
      byteAt data (first + 2) = 0x77)
    (hreach : Reaches (hop classes data) (start + (decode data start).1) last) :
    ∃ meet, Reaches (hop classes data) (first + 1) meet ∧
      Reaches (hop classes data) meet last := by
  -- a unit of the first scan that holds the first letter ends within the three
  obtain ⟨meet, hmeet, hmeet', hrest⟩ : ∃ meet, first < meet ∧ meet ≤ first + 3 ∧
      Reaches (hop classes data) meet last := by
    have hin : start < data.length := by omega
    obtain ⟨-, hwidth, hone⟩ := decode_width hin
    rcases Nat.lt_or_ge first (start + (decode data start).1) with hin | hout
    · exact ⟨_, hin, by omega, hreach⟩
    · obtain ⟨before, after, hhop, hle, hafter, hrest⟩ := exists_hop hreach hout hlt
      obtain ⟨-, hread, hnext⟩ := hop_some hhop
      have hat : reading data before ≤ first := by
        rcases reading_cases data before with heq | ⟨hslash, heq⟩
        · rwa [heq]
        · have hne : before ≠ first := by
            rintro rfl
            rw [hwww.1] at hslash
            exact absurd hslash (by decide)
          omega
      refine ⟨after, hafter, ?_, hrest⟩
      rcases hnext with heq | ⟨hfour, hlead⟩
      · omega
      · have hne : reading data before ≠ first := by
          intro heq
          rw [heq, hwww.1] at hlead
          exact hlead (by decide)
        omega
  refine ⟨meet, ?_, hrest⟩
  have hsecond : hop classes data (first + 1) = some (first + 2) :=
    hop_w hwww.2.1 (by omega)
  have hthird : hop classes data (first + 2) = some (first + 3) := hop_w hwww.2.2 hlen
  obtain rfl | rfl | rfl : meet = first + 1 ∨ meet = first + 2 ∨ meet = first + 3 := by omega
  · exact .refl
  · exact .single hsecond
  · exact .head hsecond (.single hthird)

/-- No scan of a candidate comes past the colon of a scheme. -/
lemma not_hops_colon {start colon last : ℕ} (hhost : 0 < hostcharWidth classes data start)
    (hstart : start < colon + 3) (hlt : colon < last) (hlen : colon < data.length)
    (hcolon : byteAt data colon = 0x3a) (hslash : byteAt data (colon + 1) = 0x2f)
    (hslash' : byteAt data (colon + 2) = 0x2f)
    (hletters : ∀ i, 1 ≤ i → i ≤ 3 → byteAt data (colon - i) < 0x80) :
    ¬ Reaches (hop classes data) (start + (decode data start).1) last := by
  intro hreach
  have hlead (i : ℕ) (hi : i < colon) (hi' : colon ≤ i + 3) : byteAt data i < 0xc0 := by
    have h := hletters (colon - i) (by omega) (by omega)
    rw [Nat.sub_sub_self hi.le] at h
    exact UInt8.lt_trans h (by decide)
  have hslashes (hi : byteAt data start = 0x2f ∨ byteAt data start = 0x3a) : False := by
    have hascii : byteAt data start < 0x80 := by
      rcases hi with hi | hi <;> rw [hi] <;> decide
    rw [hostcharWidth_ascii hascii] at hhost
    rcases hi with hi | hi <;> rw [hi] at hhost <;> exact absurd hhost (by decide)
  rcases Nat.lt_or_ge start colon with hbefore | hafter
  · obtain ⟨-, hwidth, hone⟩ := decode_width (hbefore.trans hlen)
    rcases Nat.lt_or_ge colon (start + (decode data start).1) with hin | hout
    · have hascii := hone (hlead start hbefore (by omega))
      omega
    · obtain ⟨before, after, hhop, hle, hnext, -⟩ := exists_hop hreach hout hlt
      obtain ⟨-, hread, hcases⟩ := hop_some hhop
      have hat : reading data before ≤ colon := by
        rcases reading_cases data before with heq | ⟨hescape, heq⟩
        · rwa [heq]
        · have hne : before ≠ colon := by
            rintro rfl
            rw [hcolon] at hescape
            exact absurd hescape (by decide)
          omega
      rcases Nat.lt_or_eq_of_le hat with hless | heq
      · rcases hcases with heq | ⟨hfour, hbyte⟩
        · omega
        · exact hbyte (hlead _ hless (by omega))
      · rw [hop_colon (by rw [heq, hcolon])] at hhop
        cases hhop
  · obtain rfl | rfl | rfl : start = colon ∨ start = colon + 1 ∨ start = colon + 2 := by omega
    · exact hslashes (Or.inr hcolon)
    · exact hslashes (Or.inl hslash)
    · exact hslashes (Or.inl hslash')

/-- A candidate that starts before the last underscore of a rejected domain has that underscore in
its last two segments. -/
theorem rejects_of_rejected {candidate candidate' : Candidate} {start start' : ℕ}
    (hcandidate : candidate.start? classes data = some start)
    (hcandidate' : candidate'.start? classes data = some start') (hle : start ≤ start')
    (hrejects : (scanDomain classes data start).2.Rejects)
    (hlt : start' < (scanDomain classes data start).2.lastUnderscore) :
    (scanDomain classes data start').2.Rejects := by
  rcases Nat.lt_or_eq_of_le hle with hless | rfl
  · have hclean : ¬ (⟨0, 0, 0, start⟩ : Segments).Rejects := by simp [Segments.Rejects]
    rcases exists_underscore hrejects with ⟨last, next, hreach, hnext, hunder, hlast⟩ | ⟨-, h⟩
    · rw [scanDomain, ← hlast] at hlt
      have hin := (hop_some hnext).1
      have hbefore : reading data last ≤ last + 1 := by
        rcases reading_cases data last with heq | ⟨-, heq⟩ <;> omega
      have hhost := start_host hcandidate
      cases candidate' with
      | www contextStart offset =>
        obtain ⟨hw, hw', hw'', hdot⟩ := wwwStart_some hcandidate'
        -- the underscore is none of the four bytes
        have hfar : start' + 3 < reading data last := by
          by_contra hnear
          obtain heq | heq | heq : reading data last = start' + 1 ∨
              reading data last = start' + 2 ∨ reading data last = start' + 3 := by omega
          · rw [heq, hw'] at hunder
            exact absurd hunder (by decide)
          · rw [heq, hw''] at hunder
            exact absurd hunder (by decide)
          · rw [heq, hdot] at hunder
            exact absurd hunder (by decide)
        obtain ⟨meet, hmeet, hrest⟩ :=
          hops_meet hless (by omega) (by omega) ⟨hw, hw', hw''⟩ hreach
        have hwidth : (decode data start').1 = 1 := by
          rw [decode_ascii (by rw [hw]; decide)]
        have hstart : start < data.length := by omega
        have hpos := (decode_width hstart).1
        refine rejects_of_hops (by omega) (by omega) hreach ?_ hnext hunder hrejects
        rw [hwidth]
        exact hmeet.trans hrest
      | scheme offset =>
        obtain ⟨rfl, -, hcolon, hslash, hslash', hletters, -⟩ := urlStart_some hcandidate'
        exact absurd hreach
          (not_hops_colon hhost hless (by omega) (by omega) hcolon hslash hslash' hletters)
    · exact absurd h hclean
  · exact hrejects

end

/-! ### Runs -/

section

variable {classes : UnicodeClasses} {data : List UInt8}

/-- Up to where a rejection holds behind calls that start no later than `bound`: nowhere, or up to
the last underscore of a domain one of them has rejected. -/
def Holds (classes : UnicodeClasses) (data : List UInt8) (bound rejectedUntil : ℕ) : Prop :=
  rejectedUntil = 0 ∨ ∃ call : Call classes data, call.start ≤ bound ∧
    (scanDomain classes data call.start).2.Rejects ∧
    rejectedUntil = (scanDomain classes data call.start).2.lastUnderscore

lemma Holds.mono {bound bound' rejectedUntil : ℕ} (h : Holds classes data bound rejectedUntil)
    (hle : bound ≤ bound') : Holds classes data bound' rejectedUntil := by
  rcases h with h | ⟨call, hcall, hrejects, h⟩
  · exact Or.inl h
  · exact Or.inr ⟨call, hcall.trans hle, hrejects, h⟩

/-- A call that is refused would be rejected. -/
lemma Holds.rejects {rejectedUntil : ℕ} {call : Call classes data}
    (h : Holds classes data call.start rejectedUntil) (hlt : call.start < rejectedUntil) :
    (scanDomain classes data call.start).2.Rejects := by
  rcases h with rfl | ⟨earlier, hle, hrejects, rfl⟩
  · exact absurd hlt (Nat.not_lt_zero _)
  · exact rejects_of_rejected earlier.starts call.starts hle hrejects hlt

/-- A call answers what it would with no call before it. -/
lemma Holds.call {rejectedUntil : ℕ} {call : Call classes data}
    (h : Holds classes data call.start rejectedUntil) :
    (checkDomain classes data rejectedUntil call.start call.candidate.allowShort).1 =
        (checkDomain classes data 0 call.start call.candidate.allowShort).1 ∧
      Holds classes data call.start
        (checkDomain classes data rejectedUntil call.start call.candidate.allowShort).2 := by
  by_cases hlt : call.start < rejectedUntil
  · have hrejects := h.rejects hlt
    simp only [checkDomain, hlt, if_true, Nat.not_lt_zero, if_false, hrejects, true_and]
    exact h
  · simp only [checkDomain, hlt, if_false, Nat.not_lt_zero]
    by_cases hrejects : (scanDomain classes data call.start).2.Rejects
    · simp only [hrejects, if_true, true_and]
      exact Or.inr ⟨call, le_rfl, hrejects, rfl⟩
    · simp only [hrejects, if_false]
      cases call.candidate.allowShort with
      | true => exact ⟨rfl, h⟩
      | false => exact ⟨rfl, h⟩

lemma answers_fst {rejectedUntil : ℕ} {calls : List (Call classes data)}
    (hsorted : calls.Pairwise fun call later => call.start ≤ later.start)
    (h : ∀ call ∈ calls, Holds classes data call.start rejectedUntil) :
    (answers classes data rejectedUntil calls).1 = calls.map fun call =>
      (checkDomain classes data 0 call.start call.candidate.allowShort).1 := by
  induction calls generalizing rejectedUntil with
  | nil => rfl
  | cons call rest ih =>
    obtain ⟨hanswer, hholds⟩ := (h call List.mem_cons_self).call
    obtain ⟨hfirst, hrest⟩ := List.pairwise_cons.mp hsorted
    have hmore := ih hrest fun later hlater => hholds.mono (hfirst later hlater)
    simp only [answers, hanswer, hmore, List.map_cons]

/-- What the run keeps behind some calls holds of every call that starts no earlier. -/
lemma answers_holds {rejectedUntil bound : ℕ} {calls : List (Call classes data)}
    (hbound : ∀ call ∈ calls, call.start ≤ bound)
    (hsorted : calls.Pairwise fun call later => call.start ≤ later.start)
    (h : ∀ call ∈ calls, Holds classes data call.start rejectedUntil)
    (hbase : Holds classes data bound rejectedUntil) :
    Holds classes data bound (answers classes data rejectedUntil calls).2 := by
  induction calls generalizing rejectedUntil with
  | nil => exact hbase
  | cons call rest ih =>
    obtain ⟨-, hholds⟩ := (h call List.mem_cons_self).call
    obtain ⟨hfirst, hrest⟩ := List.pairwise_cons.mp hsorted
    simp only [answers]
    apply ih
    · intro later hlater
      exact hbound later (List.mem_cons_of_mem call hlater)
    · exact hrest
    · intro later hlater
      exact hholds.mono (hfirst later hlater)
    · exact hholds.mono (hbound call List.mem_cons_self)

/-- The rejection kept over a run hides no link: at nondecreasing starts every call answers what it
would with no earlier call made, and a call that is refused for its start has an underscore in one
of the last two segments of its domain. -/
theorem answers_of_run (calls : List (Call classes data))
    (hsorted : calls.Pairwise fun call later => call.start ≤ later.start) :
    (answers classes data 0 calls).1 = calls.map (fun call =>
      (checkDomain classes data 0 call.start call.candidate.allowShort).1) ∧
    ∀ before call after, calls = before ++ call :: after →
      call.start < (answers classes data 0 before).2 →
      (scanDomain classes data call.start).2.Rejects := by
  refine ⟨answers_fst hsorted fun _ _ => Or.inl rfl, ?_⟩
  rintro before call after rfl hlt
  obtain ⟨hbefore, -, hbound⟩ := List.pairwise_append.mp hsorted
  have hholds : Holds classes data call.start (answers classes data 0 before).2 :=
    answers_holds (fun earlier hearlier => hbound earlier hearlier call List.mem_cons_self) hbefore
      (fun _ _ => Or.inl rfl) (Or.inl rfl)
  exact hholds.rejects hlt

end

/-- Punctuation in ASCII alone. -/
def asciiClasses : UnicodeClasses where
  punctuation c := decide (c < 0x80) && ispunct (UInt8.ofNat c)
  ascii c h := by
    have hlt : c.toNat < 0x80 := h
    rw [UInt8.ofNat_toNat, decide_eq_true hlt, Bool.true_and]

/-- `www.a_www.b_c`: the second candidate is refused without a scan. -/
def nested : List UInt8 :=
  [0x77, 0x77, 0x77, 0x2e, 0x61, 0x5f, 0x77, 0x77, 0x77, 0x2e, 0x62, 0x5f, 0x63]

def nestedCalls : List (Call asciiClasses nested) :=
  [⟨0, .www 0 0, by decide⟩, ⟨6, .www 0 6, by decide⟩]

theorem answers_of_nested :
    (answers asciiClasses nested 0 nestedCalls).1 = nestedCalls.map (fun call =>
      (checkDomain asciiClasses nested 0 call.start call.candidate.allowShort).1) ∧
    ∀ before call after, nestedCalls = before ++ call :: after →
      call.start < (answers asciiClasses nested 0 before).2 →
      (scanDomain asciiClasses nested call.start).2.Rejects :=
  answers_of_run nestedCalls (by simp [nestedCalls])

example : (answers asciiClasses nested 0 nestedCalls).2 = 11 := by decide

end MarkdownCore.Autolink
